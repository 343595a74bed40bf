import GrammarRepair.NormalForm.Chain
import GrammarRepair.Proofs.NormalForm.StandIn

/-!
Splitting long productions. Every link of a chain has a name of its own and one production, so the
new table refines the old one. Main statement: it does, it is as well formed as the old one, and no
production is longer than a pair.
-/

namespace GrammarRepair

namespace NormalForm

/-- `Chained body (rest, links)`: what is left of `body`, and the links that hold the others of its
symbols. -/
inductive Chained : List Sym → List Sym × Table → Prop
  | short {body : List Sym} (h : body.length ≤ 2) : Chained body (body, [])
  | link {x : Sym} {name : String} {body rest : List Sym} {links : Table} (hbody : body ≠ [])
      (hlong : 2 < (x :: body).length) (h : Chained body (rest, links)) :
      Chained (x :: body) ([x, .rule name], ⟨name, [rest]⟩ :: links)

/-- Whatever holds of the short suffixes of a body, and of its symbols followed by links, holds of
all that it is split into. -/
theorem Chained.all {P : List Sym → Prop} {body rest : List Sym} {links : Table}
    (h : Chained body (rest, links))
    (hshort : ∀ xs, xs <:+ body → xs.length ≤ 2 → (xs = [] → body = []) → P xs)
    (hlink : 2 < body.length → ∀ x ∈ body, ∀ name ∈ links.names, P [x, .rule name]) :
    P rest ∧ links.AllBodies P := by
  generalize hparts : (rest, links) = parts at h
  induction h generalizing rest links with
  | short h =>
    cases hparts
    exact ⟨hshort _ (List.suffix_refl _) h id, fun row hrow => by cases hrow⟩
  | @link x name body rest' links' hbody hlong h ih =>
    cases hparts
    obtain ⟨hrest, hlinks⟩ := ih
      (fun xs hxs hlength hnil => hshort xs (hxs.trans (List.suffix_cons _ _)) hlength
        fun h => absurd (hnil h) hbody)
      (fun _ y hy n hn => hlink hlong y (List.mem_cons_of_mem _ hy) n (List.mem_cons_of_mem _ hn))
      rfl
    refine ⟨hlink hlong x (by simp) name (by simp [Table.names]), fun row hrow body hmem => ?_⟩
    rcases List.mem_cons.1 hrow with rfl | hrow
    · obtain rfl := List.mem_singleton.1 hmem
      exact hrest
    · exact hlinks row hrow body hmem

/-- With its links in a table, what is left of a body unfolds to what the whole of it unfolds to. -/
theorem Chained.unfolds {t : Table} {old : List String} {body rest ys : List Sym} {links : Table}
    (h : Chained body (rest, links)) (hbody : t.Unfolds old body ys)
    (hlinks : ∀ row ∈ links, row.name ∉ old ∧ t.bodiesOf row.name = row.bodies) :
    t.Unfolds old rest ys := by
  generalize hparts : (rest, links) = parts at h
  induction h generalizing rest links ys with
  | short h =>
    cases hparts
    exact hbody
  | @link x name body rest' links' hne hlong h ih =>
    cases hparts
    obtain ⟨hnew, hbodies⟩ := hlinks ⟨name, [rest']⟩ (by simp)
    have hlast {zs : List Sym} (hzs : t.Unfolds old body zs) : t.Unfolds old [.rule name] zs := by
      have hrest := ih hzs (fun row hrow => hlinks row (List.mem_cons_of_mem _ hrow)) rfl
      simpa using Table.Unfolds.fresh hnew hbodies hrest .nil
    cases hbody with
    | token hbody => exact .token (hlast hbody)
    | rule hold hbody => exact .rule hold (hlast hbody)
    | fresh hfresh hbodies' hx hbody => exact .fresh hfresh hbodies' hx (hlast hbody)

theorem Chained.eq_of_short {body : List Sym} {parts : List Sym × Table} (h : Chained body parts)
    (hshort : body.length ≤ 2) : parts = (body, []) := by
  cases h with
  | short => rfl
  | link _ hlong => exact absurd hshort (Nat.not_le.2 hlong)

theorem Chained.length_rest {body rest : List Sym} {links : Table} (h : Chained body (rest, links))
    (hlong : 2 ≤ body.length) : rest.length = 2 := by
  cases h with
  | short hshort => exact Nat.le_antisymm hshort hlong
  | link => rfl

/-- A link has one production, and that is a pair. -/
theorem Chained.single_links {body rest : List Sym} {links : Table} (h : Chained body (rest, links)) :
    ∀ link ∈ links, ∃ pair, link.bodies = [pair] ∧ pair.length = 2 := by
  generalize hparts : (rest, links) = parts at h
  induction h generalizing rest links with
  | short h =>
    cases hparts
    exact fun link hlink => by cases hlink
  | link hne hlong h ih =>
    cases hparts
    intro link hlink
    rcases List.mem_cons.1 hlink with rfl | hlink
    · exact ⟨_, rfl, h.length_rest (Nat.le_of_lt_succ hlong)⟩
    · exact ih rfl link hlink

namespace Linking

variable {s : Linking} {owner : String} {body : List Sym}

theorem chained_chainBody (owner : String) (body : List Sym) (s : Linking) :
    Chained body (chainBody owner body s).1 := by
  fun_induction chainBody owner body s with
  | case1 x y z more s name s' hmint rest links s'' hrest ih =>
    rw [hrest] at ih
    exact .link (by simp) (by simp) ih
  | case2 body s hbody =>
    refine .short ?_
    match body, hbody with
    | [], _ => simp
    | [x], _ => simp
    | [x, y], _ => simp
    | x :: y :: z :: more, hbody => exact absurd rfl (hbody x y z more)

theorem taken_chainBody (owner : String) (body : List Sym) (s : Linking) :
    (chainBody owner body s).2.taken =
      (chainBody owner body s).1.2.names.reverse ++ s.taken := by
  fun_induction chainBody owner body s with
  | case1 x y z more s name s' hmint rest links s'' hrest ih =>
    have htaken : s'.taken = name :: s.taken := by
      cases hmint
      rfl
    rw [hrest, htaken] at ih
    rw [ih]
    simp [Table.names]
  | case2 body s hbody => rfl

theorem nodup_chainBody (owner : String) (body : List Sym) (s : Linking) (h : s.taken.Nodup) :
    (chainBody owner body s).2.taken.Nodup := by
  fun_induction chainBody owner body s with
  | case1 x y z more s name s' hmint rest links s'' hrest ih =>
    have hmint' : s'.taken.Nodup := by
      cases hmint
      exact List.nodup_cons.2 ⟨freshName_not_mem _ _, h⟩
    rw [hrest] at ih
    exact ih hmint'
  | case2 body s hbody => exact h

theorem taken_chainRow (row : Row) (taken : List String) :
    (chainRow row taken).2 = (chainRow row taken).1.2.names.reverse ++ taken := by
  have hpushes := mapState_pushes Linking.taken (fun chained : List Sym × Table => chained.2.names)
    (taken_chainBody row.name) row.bodies ⟨0, taken⟩
  rw [chainRow, Table.names_flatMap]
  exact hpushes

theorem nodup_chainRow (row : Row) (taken : List String) (h : taken.Nodup) :
    (chainRow row taken).2.Nodup :=
  mapState_invariant (chainBody row.name) (P := fun s => s.taken.Nodup)
    (nodup_chainBody row.name) row.bodies ⟨0, taken⟩ h

def ChainedRow (row : Row) (parts : Row × Table) : Prop :=
  parts.1.name = row.name ∧ ∃ chained, List.Forall₂ Chained row.bodies chained ∧
    parts.1.bodies = chained.map (·.1) ∧ parts.2 = chained.flatMap (·.2)

theorem chainedRow_chainRow (row : Row) (taken : List String) :
    ChainedRow row (chainRow row taken).1 := by
  have hbodies := mapState_forall₂ (R := fun _ => Chained) (chained_chainBody row.name)
    (fun _ _ _ _ h => h) row.bodies ⟨0, taken⟩
  exact ⟨rfl, _, hbodies, rfl, rfl⟩

end Linking

open Linking

theorem eq_of_chainedRow {row : Row} {parts : Row × Table} (h : ChainedRow row parts)
    (hshort : ∀ body ∈ row.bodies, body.length ≤ 2) : parts.1 = row := by
  obtain ⟨⟨name, bodies⟩, links⟩ := parts
  obtain ⟨rfl, chained, hchained, rfl, rfl⟩ := h
  have hbodies : chained.map (·.1) = row.bodies.map id :=
    map_eq_of_forall₂ (forall₂_imp_of_mem hchained fun body hbody split _ h =>
      h.eq_of_short (hshort body hbody)) fun body split h => congrArg Prod.fst h
  rw [List.map_id] at hbodies
  show (⟨row.name, chained.map (·.1)⟩ : Row) = row
  rw [hbodies]

theorem single_of_chainedRow {row : Row} {parts : Row × Table} (h : ChainedRow row parts) :
    ∀ link ∈ parts.2, ∃ pair, link.bodies = [pair] ∧ pair.length = 2 := by
  obtain ⟨-, chained, hchained, -, hlinks⟩ := h
  intro link hlink
  rw [hlinks] at hlink
  obtain ⟨⟨rest, links⟩, hsplit, hlink⟩ := List.mem_flatMap.1 hlink
  obtain ⟨body, -, h⟩ := exists_of_mem_right hchained hsplit
  exact h.single_links link hlink

theorem names_of_chainedRow {t : Table} {parts : List (Row × Table)}
    (h : List.Forall₂ ChainedRow t parts) : Table.names (parts.map (·.1)) = t.names := by
  rw [Table.names, List.map_map]
  exact map_eq_of_forall₂ h fun _ _ hrow => hrow.1

theorem exists_splitLong (t : Table) (hnodup : t.names.Nodup) :
    ∃ parts : List (Row × Table), splitLong t = parts.map (·.1) ++ parts.flatMap (·.2) ∧
      List.Forall₂ ChainedRow t parts ∧
      (t.names ++ (parts.flatMap (·.2.names))).Nodup := by
  have hrows := mapState_forall₂ (R := fun _ => ChainedRow) chainedRow_chainRow
    (fun _ _ _ _ h => h) t t.names
  have hpushes := mapState_pushes id (fun parts : Row × Table => parts.2.names) taken_chainRow t
    t.names
  have htaken := mapState_invariant chainRow (P := List.Nodup) nodup_chainRow t t.names hnodup
  refine ⟨(mapState chainRow t t.names).1, rfl, hrows, ?_⟩
  rw [show (mapState chainRow t t.names).2 = _ from hpushes] at htaken
  exact nodup_of_pushed htaken

section

variable {t : Table} {parts : List (Row × Table)} (hrows : List.Forall₂ ChainedRow t parts)
  (hnodup : (t.names ++ parts.flatMap (·.2.names)).Nodup)

include hrows

theorem names_chained : Table.names (parts.map (·.1) ++ parts.flatMap (·.2)) =
    t.names ++ parts.flatMap (·.2.names) := by
  rw [Table.names_append, names_of_chainedRow hrows, Table.names_flatMap]

include hnodup

/-- A link is new, and the table holds it. -/
theorem link_of_mem {part : Row × Table} (hpart : part ∈ parts) {link : Row}
    (hlink : link ∈ part.2) : link.name ∉ t.names ∧
      Table.bodiesOf (parts.map (·.1) ++ parts.flatMap (·.2)) link.name = link.bodies := by
  have hmem : link ∈ parts.flatMap (·.2) := List.mem_flatMap.2 ⟨part, hpart, hlink⟩
  have hname : link.name ∈ parts.flatMap (·.2.names) :=
    List.mem_flatMap.2 ⟨part, hpart, Table.mem_names hlink⟩
  refine ⟨fun hold => (List.nodup_append.1 hnodup).2.2 _ hold _ hname rfl, ?_⟩
  exact Table.bodiesOf_of_mem (by rwa [names_chained hrows]) (List.mem_append_right _ hmem)

theorem refines_chained (ht : t.WellFormed) :
    t.Refines (parts.map (·.1) ++ parts.flatMap (·.2)) := by
  intro n hn
  obtain ⟨row, hrow, rfl⟩ := List.mem_map.1 hn
  obtain ⟨part, hpart, hname, chained, hchained, hbodies, hlinks⟩ := exists_of_mem_left hrows hrow
  have hmem : part.1 ∈ parts.map (·.1) ++ parts.flatMap (·.2) :=
    List.mem_append_left _ (List.mem_map_of_mem hpart)
  rw [Table.bodiesOf_of_mem ht.nodup hrow, ← hname,
    Table.bodiesOf_of_mem (by rwa [names_chained hrows]) hmem, hbodies, List.forall₂_map_left_iff]
  have hunfolds := forall₂_imp_of_mem hchained fun body hbody split hsplit h =>
    h.unfolds (t := parts.map (·.1) ++ parts.flatMap (·.2))
      (Table.unfolds_self (ht.closed row hrow body hbody))
      fun link hlink => link_of_mem hrows hnodup hpart
        (hlinks ▸ List.mem_flatMap.2 ⟨split, hsplit, hlink⟩)
  exact hunfolds.flip

end

theorem allBodies_chained {t : Table} {parts : List (Row × Table)}
    (hrows : List.Forall₂ ChainedRow t parts) {P : List Sym → Prop}
    (hshort : t.AllBodies fun body =>
      ∀ xs, xs <:+ body → xs.length ≤ 2 → (xs = [] → body = []) → P xs)
    (hlink : t.AllBodies fun body => 2 < body.length →
      ∀ x ∈ body, ∀ name ∈ parts.flatMap (·.2.names), P [x, .rule name]) :
    Table.AllBodies (parts.map (·.1) ++ parts.flatMap (·.2)) P := by
  have hparts : ∀ part ∈ parts, (∀ body ∈ part.1.bodies, P body) ∧ part.2.AllBodies P := by
    intro part hpart
    obtain ⟨row, hrow, hname, chained, hchained, hbodies, hlinks⟩ := exists_of_mem_right hrows hpart
    have hall : ∀ split ∈ chained, P split.1 ∧ split.2.AllBodies P := by
      intro split hsplit
      obtain ⟨body, hbody, h⟩ := exists_of_mem_right hchained hsplit
      refine h.all (hshort row hrow body hbody) fun hlong x hx name hname => ?_
      refine hlink row hrow body hbody hlong x hx name (List.mem_flatMap.2 ⟨part, hpart, ?_⟩)
      rw [hlinks, Table.names_flatMap]
      exact List.mem_flatMap.2 ⟨split, hsplit, hname⟩
    refine ⟨fun body hbody => ?_, fun link hlink => ?_⟩
    · rw [hbodies] at hbody
      obtain ⟨split, hsplit, rfl⟩ := List.mem_map.1 hbody
      exact (hall split hsplit).1
    · rw [hlinks] at hlink
      obtain ⟨split, hsplit, hlink⟩ := List.mem_flatMap.1 hlink
      exact (hall split hsplit).2 link hlink
  intro row hrow
  rcases List.mem_append.1 hrow with hrow | hrow
  · obtain ⟨part, hpart, rfl⟩ := List.mem_map.1 hrow
    exact (hparts part hpart).1
  · obtain ⟨part, hpart, hrow⟩ := List.mem_flatMap.1 hrow
    exact (hparts part hpart).2 row hrow

theorem Table.WellFormed.splitLong_refines {t : Table} (ht : t.WellFormed) :
    t.Refines (splitLong t) := by
  obtain ⟨parts, heq, hrows, hnodup⟩ := exists_splitLong t ht.nodup
  rw [heq]
  exact refines_chained hrows hnodup ht

/-- No production is longer than two symbols. -/
theorem Table.WellFormed.length_splitLong {t : Table} (ht : t.WellFormed) :
    (splitLong t).AllBodies (·.length ≤ 2) := by
  obtain ⟨parts, heq, hrows, -⟩ := exists_splitLong t ht.nodup
  rw [heq]
  exact allBodies_chained hrows (fun row hrow body hbody xs hxs hlength hnil => hlength)
    fun row hrow body hbody hlong x hx name hname => by simp

theorem Table.WellFormed.isolated_splitLong {t : Table} (ht : t.WellFormed)
    (hisolated : t.AllBodies Isolated) : (splitLong t).AllBodies Isolated := by
  obtain ⟨parts, heq, hrows, -⟩ := exists_splitLong t ht.nodup
  rw [heq]
  refine allBodies_chained hrows (fun row hrow body hbody xs hxs _ _ hlong x hx => ?_)
    fun row hrow body hbody hlong x hx name hname _ y hy => ?_
  · have hlength := hxs.length_le
    exact hisolated row hrow body hbody (by omega) x (hxs.subset hx)
  · rcases List.mem_cons.1 hy with rfl | hy
    · exact hisolated row hrow body hbody (by omega) _ hx
    · exact ⟨name, List.mem_singleton.1 hy⟩

theorem Table.WellFormed.hasToken_of_splitLong {t : Table} (ht : t.WellFormed) {text : String}
    (h : (NormalForm.splitLong t).HasToken text) : t.HasToken text := by
  obtain ⟨parts, heq, hrows, -⟩ := exists_splitLong t ht.nodup
  have hall : (NormalForm.splitLong t).AllBodies fun body =>
      .token text ∈ body → t.HasToken text := by
    rw [heq]
    refine allBodies_chained hrows (fun row hrow body hbody xs hxs _ _ hmem => ?_)
      fun row hrow body hbody _ x hx name hname hmem => ?_
    · exact ⟨row, hrow, body, hbody, hxs.subset hmem⟩
    · obtain rfl : .token text = x := by simpa using hmem
      exact ⟨row, hrow, body, hbody, hx⟩
  obtain ⟨row, hrow, body, hbody, hmem⟩ := h
  exact hall row hrow body hbody hmem

theorem Table.WellFormed.splitLong {t : Table} (ht : t.WellFormed) : (splitLong t).WellFormed := by
  obtain ⟨parts, heq, hrows, hnodup⟩ := exists_splitLong t ht.nodup
  rw [heq]
  refine ⟨by rwa [names_chained hrows], ?_, ?_⟩
  · rw [names_chained hrows]
    refine allBodies_chained hrows (fun row hrow body hbody xs hxs _ _ n hn => ?_)
      fun row hrow body hbody _ x hx name hname n hn => ?_
    · exact List.mem_append_left _ (ht.closed row hrow body hbody n (hxs.subset hn))
    · rcases List.mem_cons.1 hn with rfl | hn
      · exact List.mem_append_left _ (ht.closed row hrow body hbody n hx)
      · obtain rfl : n = name := by simpa using hn
        exact List.mem_append_right _ hname
  · refine allBodies_chained hrows (fun row hrow body hbody xs hxs _ hnil h => ?_)
      fun row hrow body hbody _ x hx name hname => by simp
    exact ht.nonempty row hrow body hbody (hnil h)

end NormalForm

end GrammarRepair
