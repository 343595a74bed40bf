import GrammarRepair.Grammar.OfSource
import GrammarRepair.NormalForm.Language
import GrammarRepair.Proofs.Grammar.Tokens
import GrammarRepair.Proofs.NormalForm.Unfolding

/-!
Numbers for names. A rule is numbered by its place among the rules and a token by its place among
the tokens, and no production mentions a name without a place. Main statement: the grammar of a
normal form derives the numbers of what the normal form derives.
-/

namespace GrammarRepair

namespace Grammar

theorem exists_ofParts {w : Width} {ruleNames tokenNames : List String} {start : Nat}
    {productions : List Production} (hrules : ruleNames.length ≤ w.maxIndex)
    (htokens : tokenNames.length ≤ w.maxIndex) (hproductions : productions.length ≤ w.maxIndex)
    (hr : ruleNames.Nodup) (ht : tokenNames.Nodup) (hs : start < ruleNames.length)
    (hp : ∀ p ∈ productions, p.InRange ruleNames.length tokenNames.length) :
    ∃ g, ofParts w ruleNames start tokenNames productions = .ok g := by
  have hfits : ¬ (w.maxIndex < ruleNames.length ∨ w.maxIndex < tokenNames.length ∨
      w.maxIndex < productions.length) := by omega
  have hfaults : productions.findSome? (·.fault? ruleNames.length tokenNames.length) = none :=
    List.findSome?_eq_none_iff.2 fun p hmem => Production.fault?_eq_none_iff.2 (hp p hmem)
  unfold ofParts
  rw [if_neg hfits, dif_pos ⟨(allDistinct_iff _).2 hr, (allDistinct_iff _).2 ht⟩, dif_pos hs]
  split
  · next fault h =>
    rw [hfaults] at h
    cases h
  · exact ⟨_, rfl⟩

end Grammar

namespace NormalForm

/-- `Reads S xs w`: `w` is made of the tokens in `xs` and of strings that `S` has for the rules. -/
def Reads (S : String → List String → Prop) : List Sym → List String → Prop
  | [], w => w = []
  | .token text :: xs, w => ∃ v, w = text :: v ∧ Reads S xs v
  | .rule n :: xs, w => ∃ u v, w = u ++ v ∧ S n u ∧ Reads S xs v

/-- What is closed under the productions of a table holds of all that it derives. -/
theorem Table.Derives.reads {t : Table} {S : String → List String → Prop} {xs : List Sym}
    {w : List String} (h : t.Derives xs w)
    (hS : ∀ n, ∀ body ∈ t.bodiesOf n, ∀ v, Reads S body v → S n v) : Reads S xs w := by
  induction h with
  | nil => rfl
  | token _ ih => exact ⟨_, rfl, ih⟩
  | rule hbody _ _ ihv ihw => exact ⟨_, _, rfl, hS _ _ hbody _ ihv, ihw⟩

variable {nf : NormalForm} {w : Width} {g : Grammar}

/-- The grammar that the parts of a normal form make up. -/
structure Numbers (nf : NormalForm) (g : Grammar) : Prop where
  ruleNames_eq : g.ruleNames.toList = nf.ruleNames
  tokenList_eq : g.tokenList = nf.tokenNames
  start_eq : g.start = nf.ruleNames.idxOf nf.start
  productions_eq : g.productions.toList = nf.productions

theorem numbers_of_number (h : nf.number w = .ok g) : nf.Numbers g := by
  unfold number at h
  split at h
  · cases h
  · split at h
    · cases h
    · next hparts =>
      cases h
      obtain ⟨hrules, htokens, hstart, hproductions⟩ := Grammar.names_of_ofParts hparts
      exact ⟨congrArg Array.toList hrules, congrArg Array.toList htokens, hstart,
        congrArg Array.toList hproductions⟩

theorem spans_of_number (h : nf.number w = .ok g) : g.ruleSpans = nf.ruleSpans.toArray ∧
    g.tokenSpans = (nf.tokens.map fun t => some t.span).toArray := by
  unfold number at h
  split at h
  · cases h
  · split at h
    · cases h
    · cases h
      exact ⟨rfl, rfl⟩

theorem mem_productions_iff {p : Production} : p ∈ nf.productions ↔
    ∃ (i : Nat) (rule : String × List NamedBody), nf.rules[i]? = some rule ∧
      ∃ b ∈ rule.2, p = ⟨i, nf.numberBody b⟩ := by
  simp only [productions, List.mem_flatMap, List.mem_map, Prod.exists, List.mem_zipIdx_iff_getElem?]
  constructor
  · rintro ⟨n, bodies, i, hrule, b, hb, rfl⟩
    exact ⟨i, n, bodies, hrule, b, hb, rfl⟩
  · rintro ⟨i, n, bodies, hrule, b, hb, rfl⟩
    exact ⟨n, bodies, i, hrule, b, hb, rfl⟩

def Known (nf : NormalForm) : NamedBody → Prop
  | .pair l r => l ∈ nf.ruleNames ∧ r ∈ nf.ruleNames
  | .token text => text ∈ nf.tokenNames

instance (nf : NormalForm) : DecidablePred nf.Known
  | .pair l r => inferInstanceAs (Decidable (l ∈ nf.ruleNames ∧ r ∈ nf.ruleNames))
  | .token text => inferInstanceAs (Decidable (text ∈ nf.tokenNames))

theorem overfull?_eq_none_iff : nf.overfull? w = none ↔ nf.ruleNames.length ≤ w.maxIndex ∧
    nf.tokenNames.length ≤ w.maxIndex ∧ nf.productions.length ≤ w.maxIndex := by
  rw [overfull?, ruleNames, tokenNames, List.length_map, List.length_map]
  by_cases hrules : w.maxIndex < nf.rules.length
  · simp [hrules, Nat.not_le.2 hrules]
  · by_cases htokens : w.maxIndex < nf.tokens.length
    · simp [hrules, htokens, Nat.not_le.2 htokens]
    · simp [hrules, htokens, Nat.not_lt.1 hrules, Nat.not_lt.1 htokens]

theorem inRange_of_known (hknown : ∀ rule ∈ nf.rules, ∀ b ∈ rule.2, nf.Known b) :
    ∀ p ∈ nf.productions, p.InRange nf.ruleNames.length nf.tokenNames.length := by
  intro p hp
  obtain ⟨i, rule, hrule, b, hb, rfl⟩ := mem_productions_iff.1 hp
  have hi : i < nf.ruleNames.length := by
    rw [ruleNames, List.length_map]
    exact (List.getElem?_eq_some_iff.1 hrule).1
  have hb := hknown rule (List.mem_of_getElem? hrule) b hb
  refine ⟨hi, ?_⟩
  cases b with
  | pair l r => exact ⟨List.idxOf_lt_length_iff.2 hb.1, List.idxOf_lt_length_iff.2 hb.2⟩
  | token text => exact List.idxOf_lt_length_iff.2 hb

theorem exists_number (hfits : nf.overfull? w = none) (hr : nf.ruleNames.Nodup)
    (ht : nf.tokenNames.Nodup) (hstart : nf.start ∈ nf.ruleNames)
    (hknown : ∀ rule ∈ nf.rules, ∀ b ∈ rule.2, nf.Known b) : ∃ g, nf.number w = .ok g := by
  obtain ⟨hrules, htokens, hproductions⟩ := overfull?_eq_none_iff.1 hfits
  obtain ⟨g, hg⟩ := Grammar.exists_ofParts hrules htokens hproductions hr ht
    (List.idxOf_lt_length_iff.2 hstart) (inRange_of_known hknown)
  unfold number
  rw [hfits]
  simp only
  split
  · next fault h =>
    rw [hg] at h
    cases h
  · exact ⟨_, rfl⟩

theorem idxOf_ruleNames (hr : nf.ruleNames.Nodup) {i : Nat} {rule : String × List NamedBody}
    (hrule : nf.rules[i]? = some rule) : nf.ruleNames.idxOf rule.1 = i := by
  have hname : nf.ruleNames[i]? = some rule.1 := by simp [ruleNames, hrule]
  obtain ⟨hi, hget⟩ := List.getElem?_eq_some_iff.1 hname
  rw [← hget]
  exact hr.idxOf_getElem i hi

theorem names_table (nf : NormalForm) : nf.table.names = nf.ruleNames := by
  simp [table, Table.names, ruleNames, rowOf]

section

variable (h : nf.Numbers g)

include h

theorem Numbers.nodup : nf.ruleNames.Nodup := h.ruleNames_eq ▸ g.nodup_ruleNames

theorem Numbers.idxOf_eq {i : Nat} {rule : String × List NamedBody}
    (hrule : nf.rules[i]? = some rule) : nf.ruleNames.idxOf rule.1 = i :=
  idxOf_ruleNames h.nodup hrule

theorem Numbers.mem_bodiesOf_iff {n : String} {body : List Sym} :
    body ∈ nf.table.bodiesOf n ↔ ∃ (i : Nat) (rule : String × List NamedBody),
      nf.rules[i]? = some rule ∧ rule.1 = n ∧ ∃ b ∈ rule.2, body = b.symbols := by
  constructor
  · intro hbody
    obtain ⟨row, hrow, rfl, hmem⟩ := Table.exists_row_of_mem_bodiesOf hbody
    obtain ⟨rule, hrule, rfl⟩ := List.mem_map.1 hrow
    obtain ⟨b, hb, rfl⟩ := List.mem_map.1 hmem
    obtain ⟨i, hi⟩ := List.mem_iff_getElem?.1 hrule
    exact ⟨i, rule, hi, rfl, b, hb, rfl⟩
  · rintro ⟨i, rule, hrule, rfl, b, hb, rfl⟩
    have hrow : rowOf rule ∈ nf.table := List.mem_map_of_mem (List.mem_of_getElem? hrule)
    have hbodies := Table.bodiesOf_of_mem (by rw [names_table]; exact h.nodup) hrow
    rw [show rule.1 = (rowOf rule).name from rfl, hbodies]
    exact List.mem_map_of_mem hb

theorem Numbers.known {i : Nat} {rule : String × List NamedBody} {b : NamedBody}
    (hrule : nf.rules[i]? = some rule) (hb : b ∈ rule.2) :
    ⟨i, nf.numberBody b⟩ ∈ g.productions.toList ∧ nf.Known b := by
  have hmem : ⟨i, nf.numberBody b⟩ ∈ g.productions.toList := by
    rw [h.productions_eq]
    exact mem_productions_iff.2 ⟨i, rule, hrule, b, hb, rfl⟩
  have hrules : g.ruleNames.size = nf.ruleNames.length := by
    rw [← h.ruleNames_eq, Array.length_toList]
  have htokens : g.tokenNames.size = nf.tokenNames.length := by
    rw [← h.tokenList_eq, Grammar.tokenList, Array.length_toList]
  have hrange := (g.inRange _ hmem).2
  rw [hrules, htokens] at hrange
  refine ⟨hmem, ?_⟩
  cases b with
  | pair l r => exact ⟨List.idxOf_lt_length_iff.1 hrange.1, List.idxOf_lt_length_iff.1 hrange.2⟩
  | token text => exact List.idxOf_lt_length_iff.1 hrange

theorem Numbers.exists_body {a : Nat} {body : Body} {n : String} (hn : nf.ruleNames[a]? = some n)
    (hmem : ⟨a, body⟩ ∈ g.productions.toList) :
    ∃ b : NamedBody, nf.numberBody b = body ∧ b.symbols ∈ nf.table.bodiesOf n ∧ nf.Known b := by
  rw [h.productions_eq] at hmem
  obtain ⟨i, rule, hrule, b, hb, heq⟩ := mem_productions_iff.1 hmem
  obtain ⟨rfl, hbody⟩ := Production.mk.inj heq
  obtain rfl : rule.1 = n := by simpa [ruleNames, hrule] using hn
  exact ⟨b, hbody.symm, h.mem_bodiesOf_iff.2 ⟨a, rule, hrule, rfl, b, hb, rfl⟩,
    (h.known hrule hb).2⟩

def DerivesNumber (nf : NormalForm) (g : Grammar) (n : String) (v : List String) : Prop :=
  g.Derives (nf.ruleNames.idxOf n) (v.map nf.tokenNames.idxOf) ∧ ∀ text ∈ v, text ∈ nf.tokenNames

theorem Numbers.derivesNumber_of_reads {n : String} {body : List Sym} {v : List String}
    (hbody : body ∈ nf.table.bodiesOf n) (hreads : Reads (nf.DerivesNumber g) body v) :
    nf.DerivesNumber g n v := by
  obtain ⟨i, rule, hrule, rfl, b, hb, rfl⟩ := h.mem_bodiesOf_iff.1 hbody
  obtain ⟨hmem, hknown⟩ := h.known hrule hb
  rw [DerivesNumber, h.idxOf_eq hrule]
  cases b with
  | pair l r =>
    obtain ⟨u, v, rfl, ⟨hu, hu'⟩, v', v'', rfl, ⟨hv, hv'⟩, rfl⟩ := hreads
    rw [List.append_nil, List.map_append]
    exact ⟨.pair hmem hu hv, List.forall_mem_append.2 ⟨hu', hv'⟩⟩
  | token text =>
    obtain ⟨v, rfl, rfl⟩ := hreads
    exact ⟨.token hmem, List.forall_mem_singleton.2 hknown⟩

theorem Numbers.derives_number {n : String} {v : List String}
    (hv : nf.table.Derives [.rule n] v) : nf.DerivesNumber g n v := by
  obtain ⟨u, v', rfl, hu, rfl⟩ := hv.reads fun n body hbody v => h.derivesNumber_of_reads hbody
  rw [List.append_nil]
  exact hu

theorem Numbers.exists_derives {a : Nat} {v : List Nat} (hv : g.Derives a v) :
    ∀ n, nf.ruleNames[a]? = some n → ∃ w, v = w.map nf.tokenNames.idxOf ∧
      (∀ text ∈ w, text ∈ nf.tokenNames) ∧ nf.table.Derives [.rule n] w := by
  induction hv with
  | @token a t hmem =>
    intro n hn
    obtain ⟨b, hnumber, hbody, hknown⟩ := h.exists_body hn hmem
    cases b with
    | pair l r => cases hnumber
    | token text =>
      cases hnumber
      have hderives : nf.table.Derives [.token text] [text] := .token .nil
      exact ⟨[text], rfl, List.forall_mem_singleton.2 hknown,
        Table.derives_rule_iff.2 ⟨_, hbody, hderives⟩⟩
  | @pair a b c u v hmem _ _ ihu ihv =>
    intro n hn
    obtain ⟨b', hnumber, hbody, hknown⟩ := h.exists_body hn hmem
    cases b' with
    | token text => cases hnumber
    | pair l r =>
      cases hnumber
      obtain ⟨u', rfl, hu', hleft⟩ := ihu l (List.getElem?_idxOf hknown.1)
      obtain ⟨v', rfl, hv', hright⟩ := ihv r (List.getElem?_idxOf hknown.2)
      have hderives : nf.table.Derives [.rule l, .rule r] (u' ++ v') := hleft.append hright
      exact ⟨u' ++ v', List.map_append.symm, List.forall_mem_append.2 ⟨hu', hv'⟩,
        Table.derives_rule_iff.2 ⟨_, hbody, hderives⟩⟩

theorem Numbers.start_mem : nf.start ∈ nf.ruleNames := by
  have hlt := g.start_lt
  rw [h.start_eq, ← Array.length_toList, h.ruleNames_eq] at hlt
  exact List.idxOf_lt_length_iff.1 hlt

omit h in
theorem eq_of_map_idxOf_eq {names v w : List String} (hv : ∀ text ∈ v, text ∈ names)
    (h : v.map names.idxOf = w.map names.idxOf) : v = w := by
  induction v generalizing w with
  | nil => exact (List.map_eq_nil_iff.1 h.symm).symm
  | cons text v ih =>
    obtain ⟨text', w, rfl, hhead, htail⟩ := List.map_eq_cons_iff.1 h.symm
    have heq : text = text' := (List.idxOf_inj (hv text (by simp))).1 hhead.symm
    rw [heq, ih (fun x hx => hv x (List.mem_cons_of_mem _ hx)) htail.symm]

theorem Numbers.isSentence_iff {v : List String} (hv : ∀ text ∈ v, text ∈ nf.tokenNames) :
    g.IsSentence (v.map nf.tokenNames.idxOf) ↔ nf.IsSentence v := by
  rw [Grammar.IsSentence, h.start_eq]
  constructor
  · intro hsentence
    obtain ⟨w, hw, hmem, hderives⟩ := h.exists_derives hsentence nf.start
      (List.getElem?_idxOf h.start_mem)
    obtain rfl := eq_of_map_idxOf_eq hv hw
    exact hderives
  · intro hsentence
    exact (h.derives_number hsentence).1

end

end NormalForm

end GrammarRepair
