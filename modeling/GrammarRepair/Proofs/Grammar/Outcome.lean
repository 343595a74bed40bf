import GrammarRepair.Proofs.Grammar.Checked
import GrammarRepair.Proofs.Grammar.OfSource
import GrammarRepair.Proofs.Source.Bytes
import GrammarRepair.Proofs.Source.Classification
import Mathlib.Algebra.Group.Nat.Defs

/-!
Every source has an outcome. Reading stays on character boundaries and moves on, the passes to
normal form leave nothing but known names in the shapes that the last one expects, and so nothing
goes wrong in numbering and pruning. Main statement: no step from a source to its grammar finds
itself mistaken, and what comes out is a grammar or errors, at least one.
-/

namespace GrammarRepair

namespace NormalForm

variable {g : Written}

theorem exists_of_hasToken_tableOf {text : String} (h : (tableOf g).HasToken text) :
    ∃ name : Lexeme, .token name ∈ g.symbols ∧ name.text = text := by
  obtain ⟨row, hrow, body, hbody, hmem⟩ := h
  obtain ⟨r, hr, body', hbody', -, rfl⟩ := exists_of_mem_tableOf hrow hbody
  obtain ⟨x, hx, hxt⟩ := List.mem_map.1 hmem
  have hsymbol : x ∈ g.symbols :=
    List.mem_flatMap.2 ⟨r, hr, List.mem_flatten.2 ⟨body', hbody', hx⟩⟩
  cases x with
  | rule name => cases hxt
  | token name => exact ⟨name, hsymbol, Sym.token.inj hxt⟩

theorem ruleNames_ofWritten (g : Written) :
    (ofWritten g).ruleNames = (binaryTable (tableOf g)).names := by
  rw [← names_table, table_ofWritten, Table.names_withoutUnits]

theorem start_mem_ruleNames (h : g.InOrder) : (ofWritten g).start ∈ (ofWritten g).ruleNames := by
  obtain ⟨name, hstart, hrule⟩ := h.start
  have hname : (ofWritten g).start = name.text := by simp [ofWritten, hstart]
  rw [hname, ruleNames_ofWritten]
  refine (wellFormed_tableOf h).mem_names_binaryTable ?_
  rw [names_tableOf]
  exact Written.hasRule_iff.1 hrule

/-- A normal form mentions its own rules and, if the productions did so, its own tokens. -/
theorem known_ofWritten (h : g.InOrder)
    (htokens : ∀ name, .token name ∈ g.symbols → name.text ∈ g.tokens.map (·.text)) :
    ∀ rule ∈ (ofWritten g).rules, ∀ b ∈ rule.2, (ofWritten g).Known b := by
  intro rule hrule b hb
  have ht := wellFormed_tableOf h
  obtain ⟨row, hrow, rfl⟩ := List.mem_map.1 hrule
  obtain ⟨m, -, hbody⟩ := (ht.binaryTable.mem_closedBodies_iff (Table.mem_names hrow)).1 hb
  obtain ⟨row', hrow', -, hbody⟩ := Table.exists_row_of_mem_bodiesOf hbody
  cases b with
  | pair l r =>
    have hclosed := ht.binaryTable.closed row' hrow' _ hbody
    rw [Known, ruleNames_ofWritten]
    exact ⟨hclosed l (by simp [NamedBody.symbols]), hclosed r (by simp [NamedBody.symbols])⟩
  | token text =>
    have hbinary : (binaryTable (tableOf g)).HasToken text :=
      ⟨row', hrow', _, hbody, by simp [NamedBody.symbols]⟩
    obtain ⟨name, hname, rfl⟩ := exists_of_hasToken_tableOf
      (ht.hasToken_of_replaceTokens (ht.replaceTokens.hasToken_of_splitLong hbinary))
    exact htokens name hname

theorem fits_of_number {nf : NormalForm} {w : Width} {g : Grammar} (h : nf.number w = .ok g) :
    g.Fits w := by
  have hnumbers := numbers_of_number h
  have hfits : nf.overfull? w = none := by
    cases hover : nf.overfull? w with
    | none => rfl
    | some what =>
      rw [number, hover] at h
      cases h
  have hlengths := overfull?_eq_none_iff.1 hfits
  rw [← hnumbers.ruleNames_eq, ← hnumbers.tokenList_eq, ← hnumbers.productions_eq,
    Grammar.tokenList, Array.length_toList, Array.length_toList, Array.length_toList] at hlengths
  exact ⟨hlengths.1, hlengths.2.1, hlengths.2.2⟩

end NormalForm

open NormalForm

variable {text : String} {written : Written}

/-- What numbering asks of a normal form: that names are distinct, and that there are no others. -/
structure NormalForm.Closed (nf : NormalForm) : Prop where
  nodup_rules : nf.ruleNames.Nodup
  nodup_tokens : nf.tokenNames.Nodup
  start_mem : nf.start ∈ nf.ruleNames
  known : ∀ rule ∈ nf.rules, ∀ b ∈ rule.2, nf.Known b

theorem NormalForm.closed_of_read (h : Written.read text = .ok written) :
    (ofWritten written).Closed := by
  have horder := Written.inOrder_of_read h
  have hr : (ofWritten written).ruleNames.Nodup := by
    rw [← names_table]
    exact nodup_ruleNames_ofWritten horder
  obtain ⟨rfl, -, -⟩ := Written.ofSheet_of_read h
  exact ⟨hr, Written.nodup_texts_ofSheet _, start_mem_ruleNames horder,
    known_ofWritten horder fun name => Written.mem_texts_ofSheet⟩

theorem Checked.ofSource_ok (w : Width) (text : String) :
    Checked.ofSource w text = .ok (Grammar.ofSource w text) := by
  rw [Checked.ofSource, Grammar.ofSource, Bytes.read_eq, ok_bind]
  cases hread : Written.read text with
  | error errors => rfl
  | ok written =>
    have hclosed := closed_of_read hread
    simp only [normalForm_ok (Written.inOrder_of_read hread), number_ok hclosed.nodup_rules
      hclosed.nodup_tokens hclosed.start_mem hclosed.known, ok_bind]
    cases hnumber : (ofWritten written).number w with
    | error fault => rfl
    | ok g =>
      simp only [prune_ok (fits_of_number hnumber), ok_bind]
      rfl

/-- A refused source is told at least one reason. -/
theorem Written.errors_ne_nil {errors : List SourceError} (h : read text = .error errors) :
    errors ≠ [] := by
  unfold read at h
  simp only at h
  split at h
  · split at h
    · cases h
    · next hsome =>
      cases h
      exact fun hnil => hsome (List.isEmpty_iff.2 hnil)
  · next hsome =>
    cases h
    exact fun hnil => hsome (List.isEmpty_iff.2 hnil)

/-- No step from a source to its grammar takes for granted what does not hold: no cut of the text,
no loop, no name that is looked up, no shape of a production and no index. The outcome is a grammar,
or a list of errors that is not empty, unless there are too many rules, tokens or productions. -/
theorem ofSource_never_slips (text : String)
    (hfits : ∀ written, Written.read text = .ok written →
      (ofWritten written).rules.length < 2 ^ 32 ∧ (ofWritten written).tokens.length < 2 ^ 32 ∧
        (ofWritten written).productions.length < 2 ^ 32) :
    Checked.ofSource .w32 text = .ok (Grammar.ofSource .w32 text) ∧
      ((∃ g, Grammar.ofSource .w32 text = .ok g) ∨
        ∃ errors, errors ≠ [] ∧ Grammar.ofSource .w32 text = .error (.rejected errors)) := by
  refine ⟨Checked.ofSource_ok .w32 text, ?_⟩
  cases hread : Written.read text with
  | error errors =>
    refine .inr ⟨errors, Written.errors_ne_nil hread, ?_⟩
    rw [Grammar.ofSource, hread]
  | ok written =>
    have hover : (ofWritten written).overfull? .w32 = none := by
      obtain ⟨hrules, htokens, hproductions⟩ := hfits written hread
      rw [overfull?_eq_none_iff, ruleNames, tokenNames, List.length_map, List.length_map]
      exact ⟨Nat.le_of_lt_succ hrules, Nat.le_of_lt_succ htokens, Nat.le_of_lt_succ hproductions⟩
    have hclosed := closed_of_read hread
    obtain ⟨g, hg⟩ := exists_number hover hclosed.nodup_rules hclosed.nodup_tokens
      hclosed.start_mem hclosed.known
    refine .inl ⟨g.prune, ?_⟩
    rw [Grammar.ofSource, hread]
    simp only
    rw [hg]

/-- A production that is split, tokens that are replaced, and no slip. -/
theorem ofSource_never_slips_nestedText :
    (nestedForm.rules.length < 2 ^ 32 ∧ nestedForm.tokens.length < 2 ^ 32 ∧
      nestedForm.productions.length < 2 ^ 32) ∧
      ∃ g, Checked.ofSource .w32 nestedText = .ok (.ok g) := by
  have hlengths : nestedForm.rules.length < 2 ^ 32 ∧ nestedForm.tokens.length < 2 ^ 32 ∧
      nestedForm.productions.length < 2 ^ 32 := by decide
  have hfits : ∀ written, Written.read nestedText = .ok written →
      (ofWritten written).rules.length < 2 ^ 32 ∧ (ofWritten written).tokens.length < 2 ^ 32 ∧
        (ofWritten written).productions.length < 2 ^ 32 := by
    intro written hread
    obtain rfl := Except.ok.inj (read_nestedText.symm.trans hread)
    rwa [ofWritten_nested]
  obtain ⟨hchecked, ⟨g, hg⟩ | ⟨errors, -, herrors⟩⟩ := ofSource_never_slips nestedText hfits
  · exact ⟨hlengths, g, by rw [hchecked, hg]⟩
  · obtain ⟨g, hg⟩ := exists_ofSource_nestedText
    rw [hg] at herrors
    cases herrors

end GrammarRepair
