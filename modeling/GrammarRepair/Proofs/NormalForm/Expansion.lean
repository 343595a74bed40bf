import GrammarRepair.Proofs.NormalForm.Checked

/-!
What the first two passes to normal form make of a table. The old rules keep their places and their
productions, fresh rules follow them, and each fresh rule is only short for its single body. Main
statement: this holds whatever rules and tokens are called, and every production is short.
-/

namespace GrammarRepair

namespace NormalForm

/-- A row has the name of an old one, and its bodies unfold, each to the old body in its place and
to nothing else. -/
def ShortFor (t : Table) (old : List String) (row' row : Row) : Prop :=
  row'.name = row.name ∧
    List.Forall₂ (fun body' body => ∀ ys, t.Unfolds old body' ys ↔ ys = body) row'.bodies row.bodies

/-- `Abbreviates t t'`: the table `t'` has the rules of `t` with parts of their productions
abbreviated by fresh rules, which follow them. Fresh names differ from the old ones and from each
other, and no token has two fresh rules of its own. -/
structure Abbreviates (t t' : Table) : Prop where
  kept : List.Forall₂ (ShortFor t' t.names) (t'.take t.length) t
  new : ∀ row ∈ t'.drop t.length, row.name ∉ t.names
  nodup : (Table.names (t'.drop t.length)).Nodup
  single : ∀ row ∈ t'.drop t.length, ∃ body, row.bodies = [body]
  standIn : ∀ row ∈ t'.drop t.length, ∀ row' ∈ t'.drop t.length, ∀ text,
    row.bodies = [[.token text]] → row'.bodies = [[.token text]] → row = row'
  closed : t'.AllBodies fun body => ∀ n, .rule n ∈ body → n ∈ t'.names
  isolated : t'.AllBodies fun body => ∀ text, .token text ∈ body → body = [.token text]
  short : t'.AllBodies (·.length ≤ 2)

theorem Isolated.eq_singleton {body : List Sym} (h : Isolated body) {text : String}
    (htext : .token text ∈ body) : body = [.token text] := by
  by_cases hlength : 1 < body.length
  · obtain ⟨n, hn⟩ := h hlength _ htext
    cases hn
  · match body, htext with
    | [x], htext => rw [List.mem_singleton.1 htext]
    | x :: y :: body, _ => exact absurd (by simp) hlength

open Linking StandIns

section

variable {t rows T : Table} {s : StandIns} {parts : List (Row × Table)}

theorem length_bodies_rows {row : Row} (h : row ∈ s.rows) :
    ∀ body ∈ row.bodies, body.length ≤ 2 := by
  obtain ⟨p, -, rfl⟩ := List.mem_map.1 h
  intro body hbody
  rw [List.mem_singleton.1 hbody]
  exact Nat.le_succ 1

theorem exists_of_token {links : Table}
    (hlinks : ∀ row ∈ links, ∃ pair, row.bodies = [pair] ∧ pair.length = 2) {row : Row}
    (hrow : row ∈ s.rows ++ links) {text : String} (htext : row.bodies = [[.token text]]) :
    ∃ p ∈ s.rules, p.1 = text ∧ row = ⟨p.2, [[.token p.1]]⟩ := by
  rcases List.mem_append.1 hrow with hrow | hrow
  · obtain ⟨p, hp, rfl⟩ := List.mem_map.1 hrow
    exact ⟨p, hp, by simpa using htext, rfl⟩
  · obtain ⟨pair, hpair, hlength⟩ := hlinks row hrow
    obtain rfl := List.singleton_inj.1 (htext.symm.trans hpair)
    cases hlength

theorem shortFor_row (hfresh : Fresh t.names s)
    (hbodies : ∀ p ∈ s.rules, T.bodiesOf p.2 = [[.token p.1]]) {row row' : Row} {part : Row × Table}
    (hclosed : ∀ body ∈ row.bodies, ∀ n, .rule n ∈ body → n ∈ t.names)
    (hreplaces : ReplacesRow s.rules row row') (hchained : ChainedRow row' part)
    (hlinks : ∀ link ∈ part.2, link.name ∉ t.names ∧ T.bodiesOf link.name = link.bodies) :
    ShortFor T t.names part.1 row := by
  obtain ⟨hname, chained, hsplits, hrest, hparts⟩ := hchained
  refine ⟨hname.trans hreplaces.1, ?_⟩
  rw [hrest, List.forall₂_map_left_iff]
  have hboth := forall₂_imp_of_mem (forall₂_comp hreplaces.2 hsplits)
    (S := fun body split => ∀ ys, T.Unfolds t.names split.1 ys ↔ ys = body) ?_
  · exact hboth.flip
  · rintro body hbody split hsplit ⟨body', hbody', hsplits⟩ ys
    have hunfolds : T.Unfolds t.names split.1 body :=
      hsplits.unfolds (unfolds_of_replaces hfresh hbodies (hclosed body hbody) hbody'.1)
        fun link hlink => hlinks link (hparts ▸ List.mem_flatMap.2 ⟨split, hsplit, hlink⟩)
    constructor
    · exact hunfolds.unique
    · rintro rfl
      exact hunfolds

variable (hparts : List.Forall₂ ChainedRow (rows ++ s.rows) parts)

include hparts

/-- Splitting leaves the stand-ins their tokens. -/
theorem bodiesOf_chained_standIn
    (hnodup : (Table.names (rows ++ s.rows) ++ parts.flatMap (·.2.names)).Nodup) :
    ∀ p ∈ s.rules,
      Table.bodiesOf (parts.map (·.1) ++ parts.flatMap (·.2)) p.2 = [[.token p.1]] := by
  intro p hp
  have hrow : (⟨p.2, [[.token p.1]]⟩ : Row) ∈ s.rows := List.mem_map.2 ⟨p, hp, rfl⟩
  obtain ⟨part, hpart, hchained⟩ := exists_of_mem_left hparts (List.mem_append_right rows hrow)
  have heq := eq_of_chainedRow hchained (length_bodies_rows hrow)
  have hmem : part.1 ∈ parts.map (·.1) ++ parts.flatMap (·.2) :=
    List.mem_append_left _ (List.mem_map_of_mem hpart)
  have hbodies := Table.bodiesOf_of_mem (by rwa [names_chained hparts]) hmem
  rwa [heq] at hbodies

variable (hrows : List.Forall₂ (ReplacesRow s.rules) t rows)

include hrows

theorem length_le_parts : t.length ≤ (parts.map (·.1)).length := by
  rw [List.length_map, ← hparts.length_eq, List.length_append, hrows.length_eq]
  exact Nat.le_add_right _ _

theorem drop_chained : (parts.map (·.1) ++ parts.flatMap (·.2)).drop t.length =
    s.rows ++ parts.flatMap (·.2) := by
  have hstandIns : List.Forall₂ ChainedRow s.rows (parts.drop t.length) := by
    have h := List.forall₂_drop t.length hparts
    rwa [hrows.length_eq, List.drop_left, ← hrows.length_eq] at h
  have hkept : (parts.drop t.length).map (·.1) = s.rows.map id :=
    map_eq_of_forall₂ (forall₂_imp_of_mem hstandIns fun row hrow part _ h =>
      eq_of_chainedRow h (length_bodies_rows hrow)) fun row part h => h
  rw [List.drop_append_of_le_length (length_le_parts hparts hrows), ← List.map_drop, hkept,
    List.map_id]

theorem shortFor_chained (ht : t.WellFormed) (hfresh : Fresh t.names s)
    (hnodup : (Table.names (rows ++ s.rows) ++ parts.flatMap (·.2.names)).Nodup) :
    List.Forall₂ (ShortFor (parts.map (·.1) ++ parts.flatMap (·.2)) t.names)
      ((parts.map (·.1) ++ parts.flatMap (·.2)).take t.length) t := by
  have hkept : List.Forall₂ ChainedRow rows (parts.take t.length) := by
    have h := List.forall₂_take t.length hparts
    rwa [hrows.length_eq, List.take_left, ← hrows.length_eq] at h
  rw [List.take_append_of_le_length (length_le_parts hparts hrows), ← List.map_take,
    List.forall₂_map_left_iff]
  have hshort := forall₂_imp_of_mem (forall₂_comp hrows hkept)
    (S := fun row part => ShortFor (parts.map (·.1) ++ parts.flatMap (·.2)) t.names part.1 row) ?_
  · exact hshort.flip
  · rintro row hrow part hpart ⟨row', hreplaces, hchained⟩
    refine shortFor_row hfresh (bodiesOf_chained_standIn hparts hnodup) (ht.closed row hrow)
      hreplaces hchained fun link hlink => ?_
    obtain ⟨hnew, hbodies⟩ := link_of_mem hparts hnodup (List.mem_of_mem_take hpart) hlink
    refine ⟨fun hold => hnew ?_, hbodies⟩
    rw [Table.names_append, names_of_replacesRow hrows]
    exact List.mem_append_left _ hold

end

/-- The rules are kept, and behind them come the stand-ins and then the links. -/
theorem Table.WellFormed.exists_fresh {t : Table} (ht : t.WellFormed) :
    ∃ (s : StandIns) (links : Table),
      (NormalForm.binaryTable t).drop t.length = s.rows ++ links ∧ Fresh t.names s ∧
      (∀ link ∈ links, ∃ pair, link.bodies = [pair] ∧ pair.length = 2) ∧
      List.Forall₂ (ShortFor (NormalForm.binaryTable t) t.names)
        ((NormalForm.binaryTable t).take t.length) t := by
  obtain ⟨s, rows, htokens, hfresh, hrows, -⟩ := exists_replaceTokens t ht.nodup
  obtain ⟨parts, hsplit, hparts, hnodup⟩ := exists_splitLong _ ht.replaceTokens.nodup
  rw [htokens] at hparts hnodup
  have htable : NormalForm.binaryTable t = parts.map (·.1) ++ parts.flatMap (·.2) := hsplit
  rw [htable]
  refine ⟨s, parts.flatMap (·.2), drop_chained hparts hrows, hfresh, fun link hlink => ?_,
    shortFor_chained hparts hrows ht hfresh hnodup⟩
  obtain ⟨part, hpart, hlink⟩ := List.mem_flatMap.1 hlink
  obtain ⟨row, -, hrow⟩ := exists_of_mem_right hparts hpart
  exact single_of_chainedRow hrow link hlink

theorem Table.WellFormed.abbreviates {t : Table} (ht : t.WellFormed) :
    Abbreviates t (NormalForm.binaryTable t) := by
  have hbinary := ht.binary
  obtain ⟨s, links, hdrop, hfresh, hlinks, hkept⟩ := ht.exists_fresh
  have hold : Table.names ((NormalForm.binaryTable t).take t.length) = t.names :=
    map_eq_of_forall₂ hkept.flip fun _ _ hrow => hrow.1
  have hnames : t.names ++ Table.names ((NormalForm.binaryTable t).drop t.length) =
      (NormalForm.binaryTable t).names := by
    rw [← hold, ← Table.names_append, List.take_append_drop]
  obtain ⟨-, hnodup, hnew⟩ := List.nodup_append.1 (hnames ▸ hbinary.wellFormed.nodup)
  refine
    { kept := hkept
      new := fun row hrow hname => hnew _ hname _ (Table.mem_names hrow) rfl
      nodup := hnodup
      single := ?_
      standIn := ?_
      closed := hbinary.wellFormed.closed
      isolated := fun row hrow body hbody _ htext =>
        (hbinary.isolated row hrow body hbody).eq_singleton htext
      short := hbinary.short }
  · rw [hdrop]
    intro row hrow
    rcases List.mem_append.1 hrow with hrow | hrow
    · obtain ⟨p, -, rfl⟩ := List.mem_map.1 hrow
      exact ⟨_, rfl⟩
    · obtain ⟨pair, hpair, -⟩ := hlinks row hrow
      exact ⟨pair, hpair⟩
  · rw [hdrop]
    intro row hrow row' hrow' text htext htext'
    obtain ⟨p, hp, rfl, rfl⟩ := exists_of_token hlinks hrow htext
    obtain ⟨p', hp', htext, rfl⟩ := exists_of_token hlinks hrow' htext'
    rw [List.inj_on_of_nodup_map hfresh.nodup_tokens hp hp' htext.symm]

/-- After tokens are replaced and long productions split, which comes to an end, the rules of the
author are in their places, and expanding the fresh rules gives back their productions as written. -/
theorem fresh_rules_expand_back {g : Written} (h : g.InOrder) :
    Checked.splitLong (replaceTokens (tableOf g)) = .ok (binaryTable (tableOf g)) ∧
      Abbreviates (tableOf g) (binaryTable (tableOf g)) :=
  ⟨Checked.splitLong_ok _, (wellFormed_tableOf h).abbreviates⟩

/-- A rule that has the name of a stand-in, and tokens whose stand-ins have names of a link and of
each other. -/
def clashing : Written :=
  let word (text : String) : Lexeme := ⟨text, .point 0⟩
  { start := some (word "T")
    tokens := [word "1", word "a", word "a~"]
    rules :=
      [⟨word "T", [[.token (word "1"), .token (word "a"), .token (word "a~")]]⟩,
        ⟨word "T~a", [[.rule (word "T"), .token (word "1")], [.token (word "a")]]⟩] }

theorem inOrder_clashing : clashing.InOrder where
  nodup := by decide
  nonempty := by decide
  closed := by simp [clashing, Written.hasRule]
  start := ⟨_, rfl, by decide⟩

theorem fresh_rules_expand_back_clashing : clashing.InOrder ∧
    (binaryTable (tableOf clashing)).names = ["T", "T~a", "T~1", "T~a~", "T~a~~", "T~1~"] ∧
      Abbreviates (tableOf clashing) (binaryTable (tableOf clashing)) :=
  ⟨inOrder_clashing, by decide +kernel, (fresh_rules_expand_back inOrder_clashing).2⟩

end NormalForm

end GrammarRepair
