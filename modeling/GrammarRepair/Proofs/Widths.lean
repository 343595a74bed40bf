import GrammarRepair.Proofs.Forest.Bracketing
import GrammarRepair.Proofs.Stored

/-!
Narrow and wide indices. Main statement: a width refuses a source or an intersection if it has too many
rules, tokens or productions before pruning, and for no other reason; what it does not refuse is the
same in every wider one, and no index is cut down on the way.
-/

namespace GrammarRepair

def Fault.TooNarrow (fault : Fault) : Prop :=
  ∃ what, fault.message? = some ("StorageT is not big enough to store " ++ what)

theorem tooNarrow_overfull (what : Overfull) : (Fault.overfull what).TooNarrow :=
  ⟨what.describe, rfl⟩

def Width.RefusesSource (w : Width) (text : String) : Prop :=
  ∃ fault, Grammar.ofSource w text = .error (.fault fault) ∧ fault.TooNarrow

def Width.RefusesIntersection (w : Width) (ig : Intersection) (g : Grammar) : Prop :=
  ∃ fault, ig.toGrammar w g = .error fault ∧ fault.TooNarrow

/-- Are there more than `n` rules, tokens or productions? -/
def NormalForm.Exceeds (nf : NormalForm) (n : Nat) : Prop :=
  n < nf.rules.length ∨ n < nf.tokens.length ∨ n < nf.productions.length

/-- Are there more than `n` rules, tokens or productions to be pruned? -/
def Intersection.Exceeds (ig : Intersection) (g : Grammar) (n : Nat) : Prop :=
  n < ig.nonterminals.size + 1 ∨ n < g.tokenCount ∨
    n < (ig.startProductions ++ ig.bodyProductions).length

section

variable {w w₁ w₂ : Width} {g g₁ g₂ : Grammar} {nf : NormalForm} {ig : Intersection}
  {aut : Automaton} {text : String} {m n : Nat}

theorem Width.pow_bits (w : Width) : 2 ^ w.bits - 1 = w.maxIndex := by
  rw [w.maxIndex_eq, Nat.one_shiftLeft]

theorem Width.maxIndex_lt {w₁ w₂ : Width} (h : w₁.bits < w₂.bits) : w₁.maxIndex < w₂.maxIndex := by
  rw [w₁.maxIndex_eq, w₂.maxIndex_eq, Nat.one_shiftLeft, Nat.one_shiftLeft]
  have hpow := Nat.pow_lt_pow_right Nat.one_lt_two h
  have hpos := Nat.two_pow_pos w₁.bits
  omega

theorem NormalForm.overfull?_eq_none_iff_not_exceeds :
    nf.overfull? w = none ↔ ¬ nf.Exceeds w.maxIndex := by
  rw [overfull?_eq_none_iff, Exceeds, not_or, not_or, Nat.not_lt, Nat.not_lt, Nat.not_lt, ruleNames,
    tokenNames, List.length_map, List.length_map]

theorem Intersection.fits_iff_not_exceeds : ig.Fits w g ↔ ¬ ig.Exceeds g w.maxIndex := by
  rw [Exceeds, not_or, not_or, Nat.not_lt, Nat.not_lt, Nat.not_lt]
  exact ⟨fun h => ⟨h.rules_le, h.tokens_le, h.productions_le⟩, fun h => ⟨h.1, h.2.1, h.2.2⟩⟩

theorem NormalForm.Exceeds.mono (h : nf.Exceeds n) (hle : m ≤ n) : nf.Exceeds m :=
  h.imp (Nat.lt_of_le_of_lt hle) (Or.imp (Nat.lt_of_le_of_lt hle) (Nat.lt_of_le_of_lt hle))

theorem Intersection.Exceeds.mono (h : ig.Exceeds g n) (hle : m ≤ n) : ig.Exceeds g m :=
  h.imp (Nat.lt_of_le_of_lt hle) (Or.imp (Nat.lt_of_le_of_lt hle) (Nat.lt_of_le_of_lt hle))

/-- A normal form has the same numbers in all widths that it fits. -/
theorem NormalForm.number_unique (h₁ : nf.number w₁ = .ok g₁) (h₂ : nf.number w₂ = .ok g₂) :
    g₁ = g₂ := by
  obtain ⟨hrules, htokens, hstart, hproductions⟩ := numbers_of_number h₁
  obtain ⟨hrules', htokens', hstart', hproductions'⟩ := numbers_of_number h₂
  obtain ⟨hruleSpans, htokenSpans⟩ := spans_of_number h₁
  obtain ⟨hruleSpans', htokenSpans'⟩ := spans_of_number h₂
  exact Grammar.eq_of_parts (Array.toList_inj.1 (hrules.trans hrules'.symm))
    (hruleSpans.trans hruleSpans'.symm) (hstart.trans hstart'.symm)
    (Array.toList_inj.1 (htokens.trans htokens'.symm)) (htokenSpans.trans htokenSpans'.symm)
    (Array.toList_inj.1 (hproductions.trans hproductions'.symm))

/-- The same parts make the same grammar in all widths that they fit. -/
theorem Grammar.ofParts_unique {ruleNames tokenNames : List String} {start : Nat}
    {productions : List Production} (h₁ : ofParts w₁ ruleNames start tokenNames productions = .ok g₁)
    (h₂ : ofParts w₂ ruleNames start tokenNames productions = .ok g₂) : g₁ = g₂ := by
  unfold ofParts at h₁ h₂
  split at h₁
  · cases h₁
  · split at h₂
    · cases h₂
    · exact Except.ok.inj (h₁.symm.trans h₂)

theorem ofSource_cases (w : Width) (text : String) :
    (∃ errors, Written.read text = .error errors ∧
      Grammar.ofSource w text = .error (.rejected errors)) ∨
    ∃ written, Written.read text = .ok written ∧
      (((NormalForm.ofWritten written).Exceeds w.maxIndex ∧
          ∃ what, Grammar.ofSource w text = .error (.fault (.overfull what))) ∨
        (¬ (NormalForm.ofWritten written).Exceeds w.maxIndex ∧
          ∃ g, (NormalForm.ofWritten written).number w = .ok g ∧ g.Fits w ∧
            Grammar.ofSource w text = .ok g.prune)) := by
  rw [Grammar.ofSource]
  cases hread : Written.read text with
  | error errors => exact .inl ⟨errors, rfl, rfl⟩
  | ok written =>
    have hclosed := NormalForm.closed_of_read hread
    refine .inr ⟨written, rfl, ?_⟩
    cases hover : (NormalForm.ofWritten written).overfull? w with
    | some what =>
      have hexceeds : (NormalForm.ofWritten written).Exceeds w.maxIndex := by
        by_contra hnot
        rw [NormalForm.overfull?_eq_none_iff_not_exceeds.2 hnot] at hover
        cases hover
      have hnumber : (NormalForm.ofWritten written).number w = .error (.overfull what) := by
        rw [NormalForm.number, hover]
      exact .inl ⟨hexceeds, what, by simp only [hnumber]⟩
    | none =>
      obtain ⟨g, hg⟩ := NormalForm.exists_number hover hclosed.nodup_rules hclosed.nodup_tokens
        hclosed.start_mem hclosed.known
      exact .inr ⟨NormalForm.overfull?_eq_none_iff_not_exceeds.1 hover, g, hg,
        NormalForm.fits_of_number hg, by simp only [hg]⟩

theorem toGrammar_cases (w : Width) (hok : (intersect g aut).value = .ok ig) :
    (ig.Exceeds g w.maxIndex ∧ ig.toGrammar w g = .error (.overfull .grammar)) ∨
      (¬ ig.Exceeds g w.maxIndex ∧ ∃ g', g'.Fits w ∧ ig.toGrammar w g = .ok g'.prune ∧
        Grammar.ofParts w (ig.ruleNames g) 0 g.tokenNames.toList
          (ig.startProductions ++ ig.bodyProductions) = .ok g') := by
  by_cases hexceeds : ig.Exceeds g w.maxIndex
  · refine .inl ⟨hexceeds, ?_⟩
    by_contra hmade
    exact Intersection.fits_iff_not_exceeds.1 (Intersection.fits_of_toGrammar hmade) hexceeds
  · have hfits := Intersection.fits_iff_not_exceeds.2 hexceeds
    have hformed := Intersection.wellFormed_of_intersect hok
    obtain ⟨g', hg'⟩ := Grammar.exists_ofParts (by rw [Intersection.length_ruleNames]; exact hfits.rules_le)
      hfits.tokens_le hfits.productions_le hformed.nodup_ruleNames g.nodup_tokenNames
      (Nat.succ_pos _) hformed.inRange
    exact .inr ⟨hexceeds, g', Grammar.fits_of_ofParts hg',
      congrArg (Except.map Grammar.prune) hg', hg'⟩

theorem refusesSource_iff : w.RefusesSource text ↔ ∃ written, Written.read text = .ok written ∧
    (NormalForm.ofWritten written).Exceeds w.maxIndex := by
  constructor
  · rintro ⟨fault, hfault, -⟩
    obtain ⟨errors, -, hmade⟩ | ⟨written, hread, ⟨hexceeds, -⟩ | ⟨-, g, -, -, hmade⟩⟩ :=
      ofSource_cases w text
    · cases hfault.symm.trans hmade
    · exact ⟨written, hread, hexceeds⟩
    · cases hfault.symm.trans hmade
  · rintro ⟨written, hread, hexceeds⟩
    obtain ⟨errors, hread', -⟩ | ⟨written', hread', ⟨-, what, hmade⟩ | ⟨hnot, -⟩⟩ :=
      ofSource_cases w text
    · cases hread.symm.trans hread'
    · exact ⟨_, hmade, tooNarrow_overfull what⟩
    · obtain rfl := Except.ok.inj (hread.symm.trans hread')
      exact absurd hexceeds hnot

theorem ofSource_of_not_refused (hle : w₁.maxIndex ≤ w₂.maxIndex) (h : ¬ w₁.RefusesSource text) :
    Grammar.ofSource w₁ text = Grammar.ofSource w₂ text ∧
      ((∃ errors, Grammar.ofSource w₁ text = .error (.rejected errors)) ∨
        ∃ g, Grammar.ofSource w₁ text = .ok g ∧ g.Fits w₁) := by
  obtain ⟨errors, hread, hmade⟩ | ⟨written, hread, ⟨hexceeds, -⟩ | ⟨hnot, g, hg, hfits, hmade⟩⟩ :=
    ofSource_cases w₁ text
  · refine ⟨?_, .inl ⟨errors, hmade⟩⟩
    rw [hmade, Grammar.ofSource, hread]
  · exact absurd (refusesSource_iff.2 ⟨written, hread, hexceeds⟩) h
  · refine ⟨?_, .inr ⟨_, hmade, hfits.prune⟩⟩
    obtain ⟨errors, hread', -⟩ | ⟨written', hread', hwide⟩ := ofSource_cases w₂ text
    · cases hread.symm.trans hread'
    · obtain rfl := Except.ok.inj (hread.symm.trans hread')
      obtain ⟨hexceeds, -⟩ | ⟨-, g', hg', -, hmade'⟩ := hwide
      · exact absurd (hexceeds.mono hle) hnot
      · rw [hmade, hmade', NormalForm.number_unique hg hg']

theorem refusesIntersection_iff (hok : (intersect g aut).value = .ok ig) :
    w.RefusesIntersection ig g ↔ ig.Exceeds g w.maxIndex := by
  constructor
  · rintro ⟨fault, hfault, -⟩
    obtain ⟨hexceeds, -⟩ | ⟨-, g', -, hmade, -⟩ := toGrammar_cases w hok
    · exact hexceeds
    · cases hfault.symm.trans hmade
  · intro hexceeds
    obtain ⟨-, hmade⟩ | ⟨hnot, -⟩ := toGrammar_cases w hok
    · exact ⟨_, hmade, tooNarrow_overfull .grammar⟩
    · exact absurd hexceeds hnot

theorem toGrammar_of_not_refused (hle : w₁.maxIndex ≤ w₂.maxIndex)
    (hok : (intersect g aut).value = .ok ig) (h : ¬ w₁.RefusesIntersection ig g) :
    ∃ g', ig.toGrammar w₁ g = .ok g' ∧ ig.toGrammar w₂ g = .ok g' ∧ g'.Fits w₁ := by
  obtain ⟨hexceeds, -⟩ | ⟨hnot, g₁, hfits, hmade, hparts⟩ := toGrammar_cases w₁ hok
  · exact absurd ((refusesIntersection_iff hok).2 hexceeds) h
  · obtain ⟨hexceeds, -⟩ | ⟨-, g₂, -, hmade', hparts'⟩ := toGrammar_cases w₂ hok
    · exact absurd (hexceeds.mono hle) hnot
    · obtain rfl := Grammar.ofParts_unique hparts hparts'
      exact ⟨_, hmade, hmade', hfits.prune⟩

end

/-- A width refuses a source exactly if the normal form has more rules, tokens or productions than it
can number; otherwise it gives the errors or the grammar that any wider width gives. The same holds of
an intersection that is made into a grammar. No index is cut down where a grammar is made. -/
theorem widths_agree {w₁ w₂ : Width} (hw : w₁.bits < w₂.bits) :
    (∀ text,
      (w₁.RefusesSource text ↔ ∃ written, Written.read text = .ok written ∧
        (NormalForm.ofWritten written).Exceeds (2 ^ w₁.bits - 1)) ∧
      (¬ w₁.RefusesSource text → Grammar.ofSource w₁ text = Grammar.ofSource w₂ text ∧
        ((∃ errors, Grammar.ofSource w₁ text = .error (.rejected errors)) ∨
          ∃ g, Grammar.ofSource w₁ text = .ok g ∧ g.Fits w₁))) ∧
    (∀ g aut ig, (intersect g aut).value = .ok ig →
      (w₁.RefusesIntersection ig g ↔ ig.Exceeds g (2 ^ w₁.bits - 1)) ∧
      (¬ w₁.RefusesIntersection ig g →
        ∃ g', ig.toGrammar w₁ g = .ok g' ∧ ig.toGrammar w₂ g = .ok g' ∧ g'.Fits w₁)) ∧
    ∀ w : Width,
      (∀ text, StoredGrammar.ofSource w text = (Grammar.ofSource w text).map Grammar.stored) ∧
      ∀ g aut ig, g.Fits w → (intersect g aut).value = .ok ig →
        StoredGrammar.ofIntersection w ig g = (ig.toGrammar w g).map Grammar.stored := by
  have hle := Nat.le_of_lt (Width.maxIndex_lt hw)
  rw [w₁.pow_bits]
  refine ⟨fun text => ⟨refusesSource_iff, ofSource_of_not_refused hle⟩, fun g aut ig hok =>
    ⟨refusesIntersection_iff hok, toGrammar_of_not_refused hle hok⟩, fun w =>
      ⟨StoredGrammar.ofSource_eq w, fun g aut ig => StoredGrammar.ofIntersection_eq⟩⟩

/-- A line of 256 states has more stretches than eight bits can number. -/
theorem exists_exceeds_line : ∃ ig, (intersect bracketing (line 255 [255] (by decide))).value = .ok ig ∧
    ig.Exceeds bracketing 255 := by
  have hsentence : ∃ v, bracketing.IsSentence v ∧ (line 255 [255] (by decide)).accepts v = true :=
    Grammar.exists_sentence_accepted_iff.2
      ⟨0, by decide, 255, by decide, spans_line_iff.2 ⟨by decide, Nat.le_refl 255⟩⟩
  have hisOk := (isOk_intersect_iff bracketing (line 255 [255] (by decide))).2 hsentence
  cases hok : (intersect bracketing (line 255 [255] (by decide))).value with
  | error e =>
    rw [hok] at hisOk
    cases hisOk
  | ok ig =>
    have hnodup : ((List.range 255).map fun q => (⟨0, 0, q + 1⟩ : Constituent)).Nodup :=
      List.nodup_range.map fun p q heq => Nat.succ.inj (congrArg Constituent.target heq)
    have hsubset : (List.range 255).map (fun q => (⟨0, 0, q + 1⟩ : Constituent)) ⊆
        ig.nonterminals.toList := by
      intro t ht
      obtain ⟨q, hq, rfl⟩ := List.mem_map.1 ht
      rw [Array.mem_toList_iff, Intersection.eq_pruned_of_intersect hok,
        Intersection.mem_nonterminals_pruned fun _ _ _ => Intersection.follows_of_path]
      exact needed_line (by decide) (Nat.succ_pos q) (List.mem_range.1 hq)
    have hlength := (hnodup.subperm hsubset).length_le
    rw [List.length_map, List.length_range, Array.length_toList] at hlength
    exact ⟨ig, rfl, .inl (Nat.lt_succ_of_le hlength)⟩

/-- Eight bits are enough for a small source and give what sixteen give, but not for the line. -/
theorem widths_agree_w8_w16 : Width.w8.bits < Width.w16.bits ∧
    (∃ g, Grammar.ofSource .w8 nestedText = .ok g ∧ Grammar.ofSource .w16 nestedText = .ok g) ∧
    ∃ ig, (intersect bracketing (line 255 [255] (by decide))).value = .ok ig ∧
      Width.w8.RefusesIntersection ig bracketing := by
  have hbits : Width.w8.bits < Width.w16.bits := by decide
  obtain ⟨hsource, hintersection, -⟩ := widths_agree hbits
  refine ⟨hbits, ?_, ?_⟩
  · obtain ⟨hrefuses, hagree⟩ := hsource nestedText
    have hnot : ¬ Width.w8.RefusesSource nestedText := by
      rintro hrefused
      obtain ⟨written, hread, hexceeds⟩ := hrefuses.1 hrefused
      obtain rfl := Except.ok.inj (read_nestedText.symm.trans hread)
      rw [ofWritten_nested, NormalForm.Exceeds] at hexceeds
      exact absurd hexceeds (by decide)
    obtain ⟨hsame, ⟨errors, hfailed⟩ | ⟨g, hg, -⟩⟩ := hagree hnot
    · rw [Grammar.ofSource, read_nestedText] at hfailed
      simp only at hfailed
      split at hfailed <;> cases hfailed
    · exact ⟨g, hg, hsame.symm.trans hg⟩
  · obtain ⟨ig, hok, hexceeds⟩ := exists_exceeds_line
    exact ⟨ig, hok, (hintersection _ _ ig hok).1.2 hexceeds⟩

end GrammarRepair
