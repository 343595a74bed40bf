import GrammarRepair.Proofs.NormalForm.Checked

/-!
Tables that are in normal form already. Where every production is a pair of rules or a single token
there is no token to replace, nothing to split and no single rule to follow. Main statement: the normal
form of such a table has its rules, each with its bodies once.
-/

namespace GrammarRepair

namespace NormalForm

variable {rules : List (String × List NamedBody)}

theorem length_symbols_le (b : NamedBody) : b.symbols.length ≤ 2 := by
  cases b with
  | pair left right => exact Nat.le_refl 2
  | token text => exact Nat.le_succ 1

theorem unitOf?_symbols (b : NamedBody) : unitOf? b.symbols = none := by
  cases b with
  | pair left right => rfl
  | token text => rfl

namespace StandIns

theorem replaceBody_symbols (b : NamedBody) (s : StandIns) :
    replaceBody b.symbols s = (b.symbols, s) := by
  cases b with
  | pair left right => rfl
  | token text => rfl

theorem replaceRow_rowOf (rule : String × List NamedBody) (s : StandIns) :
    replaceRow (rowOf rule) s = (rowOf rule, s) := by
  have hbodies : mapState replaceBody (rowOf rule).bodies s = ((rowOf rule).bodies.map id, s) := by
    apply mapState_eq_map
    intro body hbody
    obtain ⟨b, -, rfl⟩ := List.mem_map.1 hbody
    exact replaceBody_symbols b s
  rw [List.map_id] at hbodies
  rw [replaceRow, hbodies]

end StandIns

theorem replaceTokens_rowOf (rules : List (String × List NamedBody)) :
    replaceTokens (rules.map rowOf) = rules.map rowOf := by
  have hrows (s : StandIns) : mapState StandIns.replaceRow (rules.map rowOf) s =
      ((rules.map rowOf).map id, s) := by
    apply mapState_eq_map
    intro row hrow
    obtain ⟨rule, -, rfl⟩ := List.mem_map.1 hrow
    exact StandIns.replaceRow_rowOf rule s
  rw [replaceTokens, hrows, List.map_id]
  exact List.append_nil _

theorem splitLong_short {t : Table} (h : t.AllBodies (·.length ≤ 2)) : splitLong t = t := by
  have hrows : mapState Linking.chainRow t t.names = (t.map fun row => (row, []), t.names) :=
    mapState_eq_map fun row hrow => Linking.chainRow_short (h row hrow) _
  rw [splitLong, hrows]
  have hold : (t.map fun row => (row, ([] : Table))).map Prod.fst = t := by
    rw [List.map_map]
    exact List.map_id t
  have hlinks : (t.map fun row => (row, ([] : Table))).flatMap Prod.snd = [] := by
    rw [List.flatMap_map]
    exact List.flatMap_eq_nil_iff.2 fun _ _ => rfl
  show _ ++ _ = t
  rw [hold, hlinks, List.append_nil]

theorem allBodies_rowOf (rules : List (String × List NamedBody)) :
    Table.AllBodies (rules.map rowOf) (·.length ≤ 2) := by
  intro row hrow body hbody
  obtain ⟨rule, -, rfl⟩ := List.mem_map.1 hrow
  obtain ⟨b, -, rfl⟩ := List.mem_map.1 hbody
  exact length_symbols_le b

theorem closedBodies_rowOf (hnodup : (rules.map Prod.fst).Nodup) {rule : String × List NamedBody}
    (hrule : rule ∈ rules) : Table.closedBodies (rules.map rowOf) rule.1 = distinct rule.2 := by
  have hnames : Table.names (rules.map rowOf) = rules.map Prod.fst := List.map_map
  have hbodies : Table.bodiesOf (rules.map rowOf) rule.1 = rule.2.map (·.symbols) :=
    Table.bodiesOf_of_mem (hnames ▸ hnodup) (List.mem_map_of_mem hrule)
  have hunits : (Table.bodiesOf (rules.map rowOf) rule.1).filterMap unitOf? = [] := by
    rw [hbodies, List.filterMap_map]
    exact List.filterMap_eq_nil_iff.2 fun b _ => unitOf?_symbols b
  have hclosure : Table.unitClosure (rules.map rowOf) rule.1 = [rule.1] := by
    apply explore_of_no_next hunits
    rw [List.length_map]
    exact List.length_pos_of_mem hrule
  have hnamed : (rule.2.map (·.symbols)).filterMap namedBody? = rule.2 := by
    rw [List.filterMap_map]
    exact (List.filterMap_congr fun b _ => namedBody?_symbols b).trans List.filterMap_some
  rw [Table.closedBodies, hclosure, List.flatMap_singleton, hbodies, hnamed]

/-- The normal form of rules in normal form. -/
theorem rules_ofWritten_of_rowOf {g : Written} (h : tableOf g = rules.map rowOf)
    (hnodup : (rules.map Prod.fst).Nodup) :
    (ofWritten g).rules = rules.map fun rule => (rule.1, distinct rule.2) := by
  have htable : splitLong (replaceTokens (tableOf g)) = rules.map rowOf := by
    rw [h, replaceTokens_rowOf, splitLong_short (allBodies_rowOf rules)]
  show dropUnits (splitLong (replaceTokens (tableOf g))) = _
  rw [htable, dropUnits, List.map_map]
  apply List.map_congr_left
  intro rule hrule
  show (rule.1, Table.closedBodies (rules.map rowOf) rule.1) = (rule.1, distinct rule.2)
  rw [closedBodies_rowOf hnodup hrule]

end NormalForm

end GrammarRepair
