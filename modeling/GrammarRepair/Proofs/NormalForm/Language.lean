import GrammarRepair.Proofs.NormalForm.Unit
import GrammarRepair.Proofs.Source.Written

/-!
The language of a normal form. Each pass keeps what the old rules derive, so together they do. Main
statement: the normal form of a written grammar has the sentences of the grammar.
-/

namespace GrammarRepair

namespace NormalForm

variable {t : Table} {n : String} {w : List String}

/-- The table after all passes but the last. -/
def binaryTable (t : Table) : Table := splitLong (replaceTokens t)

theorem Table.WellFormed.binaryTable (ht : t.WellFormed) : (binaryTable t).WellFormed :=
  ht.replaceTokens.splitLong

/-- No pass drops a rule. -/
theorem Table.WellFormed.mem_names_replaceTokens (ht : t.WellFormed) (hn : n ∈ t.names) :
    n ∈ (NormalForm.replaceTokens t).names := by
  obtain ⟨s, rows, heq, -, hrows, -⟩ := exists_replaceTokens t ht.nodup
  rw [heq, names_append, names_of_replacesRow hrows]
  exact List.mem_append_left _ hn

theorem Table.WellFormed.mem_names_binaryTable (ht : t.WellFormed) (hn : n ∈ t.names) :
    n ∈ (NormalForm.binaryTable t).names := by
  obtain ⟨parts, heq, hrows, -⟩ := exists_splitLong _ ht.replaceTokens.nodup
  rw [NormalForm.binaryTable, heq, names_chained hrows]
  exact List.mem_append_left _ (ht.mem_names_replaceTokens hn)

theorem Table.WellFormed.derives_binaryTable_iff (ht : t.WellFormed) (hn : n ∈ t.names) :
    (NormalForm.binaryTable t).Derives [.rule n] w ↔ t.Derives [.rule n] w := by
  rw [NormalForm.binaryTable,
    ht.replaceTokens.splitLong_refines.derives_rule_iff (ht.mem_names_replaceTokens hn),
    ht.replaceTokens_refines.derives_rule_iff hn]

theorem table_ofWritten (g : Written) :
    (ofWritten g).table = (binaryTable (tableOf g)).withoutUnits := rfl

theorem derives_ofWritten_iff {g : Written} (h : g.InOrder) (hn : g.hasRule n = true) :
    (ofWritten g).table.Derives [.rule n] w ↔ (tableOf g).Derives [.rule n] w := by
  have ht := wellFormed_tableOf h
  have hn' : n ∈ (tableOf g).names := by
    rw [names_tableOf]
    exact Written.hasRule_iff.1 hn
  rw [table_ofWritten, ht.binaryTable.derives_withoutUnits_iff
    (ht.replaceTokens.isolated_splitLong ht.isolated_replaceTokens)
    ht.replaceTokens.length_splitLong, ht.derives_binaryTable_iff hn']

theorem isSentence_ofWritten_iff {g : Written} (h : g.InOrder) :
    (ofWritten g).IsSentence w ↔ g.IsSentence w := by
  obtain ⟨name, hstart, hrule⟩ := h.start
  have hname : (ofWritten g).start = name.text := by simp [ofWritten, hstart]
  rw [IsSentence, hname, derives_ofWritten_iff h hrule]
  have hsymbols : (tableOf g).Derives [.rule name.text] w ↔ g.Derives [.rule name] w :=
    derives_tableOf_iff h [.rule name] w
  rw [hsymbols]
  constructor
  · intro hw
    exact ⟨name, hstart, hw⟩
  · rintro ⟨name', hstart', hw⟩
    obtain rfl : name = name' := Option.some.inj (hstart.symm.trans hstart')
    exact hw

theorem nodup_ruleNames_ofWritten {g : Written} (h : g.InOrder) :
    (ofWritten g).table.names.Nodup := by
  rw [table_ofWritten, Table.names_withoutUnits]
  exact (wellFormed_tableOf h).binaryTable.nodup

end NormalForm

end GrammarRepair
