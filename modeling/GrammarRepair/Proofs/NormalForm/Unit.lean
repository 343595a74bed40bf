import GrammarRepair.Proofs.Exploration
import GrammarRepair.Proofs.NormalForm.Chain

/-!
Dropping productions that are a single rule. The rules that such productions lead to are found by
exploration, and whatever one of them produces otherwise, the first rule produces itself. Main
statement: the rules without single-rule productions derive the same strings, cycles or not.
-/

namespace GrammarRepair

namespace NormalForm

theorem unitOf?_eq_some_iff {body : List Sym} {n : String} :
    unitOf? body = some n ↔ body = [.rule n] := by
  constructor
  · intro h
    unfold unitOf? at h
    split at h
    · cases h
      rfl
    · cases h
  · rintro rfl
    rfl

theorem namedBody?_eq_some_iff {body : List Sym} {b : NamedBody} :
    namedBody? body = some b ↔ body = b.symbols := by
  constructor
  · intro h
    unfold namedBody? at h
    split at h
    · cases h
      rfl
    · cases h
      rfl
    · cases h
  · rintro rfl
    exact namedBody?_symbols b

namespace Table

variable {t : Table} {n m : String} {b : NamedBody} {w : List String} {xs : List Sym}

def HasUnit (t : Table) (n m : String) : Prop := [.rule m] ∈ t.bodiesOf n

theorem mem_units_iff : m ∈ (t.bodiesOf n).filterMap unitOf? ↔ t.HasUnit n m := by
  simp only [List.mem_filterMap, unitOf?_eq_some_iff, HasUnit]
  constructor
  · rintro ⟨body, hbody, rfl⟩
    exact hbody
  · intro h
    exact ⟨_, h, rfl⟩

theorem WellFormed.mem_names_of_hasUnit (ht : t.WellFormed) (h : t.HasUnit n m) : m ∈ t.names := by
  obtain ⟨row, hrow, -, hbody⟩ := exists_row_of_mem_bodiesOf h
  exact ht.closed row hrow _ hbody m (by simp)

/-- The closure holds the rules that chains of single-rule productions lead to. -/
theorem WellFormed.mem_unitClosure_iff (ht : t.WellFormed) (hn : n ∈ t.names) :
    m ∈ t.unitClosure n ↔ Relation.ReflTransGen t.HasUnit n m := by
  have hstarts : ∀ x ∈ [n], x ∈ t.names := by
    intro x hx
    obtain rfl := List.mem_singleton.1 hx
    exact hn
  rw [unitClosure, mem_explore_iff hstarts (fun x _ y => mem_units_iff)
    (fun x _ y hy => ht.mem_names_of_hasUnit hy) (by simp [names])]
  simp only [List.mem_singleton, exists_eq_left]

theorem WellFormed.mem_closedBodies_iff (ht : t.WellFormed) (hn : n ∈ t.names) :
    b ∈ t.closedBodies n ↔
      ∃ m, Relation.ReflTransGen t.HasUnit n m ∧ b.symbols ∈ t.bodiesOf m := by
  simp only [closedBodies, mem_distinct, List.mem_flatMap, List.mem_filterMap,
    namedBody?_eq_some_iff, ht.mem_unitClosure_iff hn]
  constructor
  · rintro ⟨m, hm, body, hbody, rfl⟩
    exact ⟨m, hm, hbody⟩
  · rintro ⟨m, hm, hbody⟩
    exact ⟨m, hm, _, hbody, rfl⟩

/-- Nothing but single rules, single tokens and pairs of rules. -/
theorem WellFormed.unit_or_named (ht : t.WellFormed) (hisolated : t.AllBodies Isolated)
    (hlength : t.AllBodies (·.length ≤ 2)) {body : List Sym} (h : body ∈ t.bodiesOf n) :
    (∃ m, body = [.rule m]) ∨ ∃ b : NamedBody, body = b.symbols := by
  obtain ⟨row, hrow, -, hbody⟩ := exists_row_of_mem_bodiesOf h
  have hne := ht.nonempty row hrow body hbody
  have hrules := hisolated row hrow body hbody
  have hle := hlength row hrow body hbody
  match body with
  | [] => exact absurd rfl hne
  | [.rule m] => exact .inl ⟨m, rfl⟩
  | [.token text] => exact .inr ⟨.token text, rfl⟩
  | [x, y] =>
    obtain ⟨left, rfl⟩ := hrules (by simp) x (by simp)
    obtain ⟨right, rfl⟩ := hrules (by simp) y (by simp)
    exact .inr ⟨.pair left right, rfl⟩
  | x :: y :: z :: more => simp at hle

def withoutUnits (t : Table) : Table := (dropUnits t).map rowOf

@[simp] theorem names_withoutUnits (t : Table) : t.withoutUnits.names = t.names := by
  simp [withoutUnits, dropUnits, names, rowOf]

theorem WellFormed.mem_bodiesOf_withoutUnits (ht : t.WellFormed) {body : List Sym} :
    body ∈ t.withoutUnits.bodiesOf n ↔
      n ∈ t.names ∧ ∃ b ∈ t.closedBodies n, body = b.symbols := by
  have hbodies : ∀ n ∈ t.names,
      t.withoutUnits.bodiesOf n = (t.closedBodies n).map (·.symbols) := by
    intro n hn
    obtain ⟨row, hrow, rfl⟩ := List.mem_map.1 hn
    have hmem : rowOf (row.name, t.closedBodies row.name) ∈ t.withoutUnits :=
      List.mem_map_of_mem (List.mem_map_of_mem (f := fun row => (row.name, t.closedBodies row.name))
        hrow)
    exact bodiesOf_of_mem (by simpa using ht.nodup) hmem
  constructor
  · intro h
    have hn : n ∈ t.names := by simpa using mem_names_of_mem_bodiesOf h
    rw [hbodies n hn] at h
    obtain ⟨b, hb, rfl⟩ := List.mem_map.1 h
    exact ⟨hn, b, hb, rfl⟩
  · rintro ⟨hn, b, hb, rfl⟩
    rw [hbodies n hn]
    exact List.mem_map_of_mem hb

theorem derives_of_hasUnit (h : Relation.ReflTransGen t.HasUnit n m) (hw : t.Derives [.rule m] w) :
    t.Derives [.rule n] w := by
  induction h using Relation.ReflTransGen.head_induction_on with
  | refl => exact hw
  | head hunit _ ih => exact derives_rule_iff.2 ⟨_, hunit, ih⟩

theorem WellFormed.derives_withoutUnits_iff (ht : t.WellFormed) (hisolated : t.AllBodies Isolated)
    (hlength : t.AllBodies (·.length ≤ 2)) : t.withoutUnits.Derives xs w ↔ t.Derives xs w := by
  constructor
  · intro h
    induction h with
    | nil => exact .nil
    | token _ ih => exact .token ih
    | rule hbody _ _ ihv ihw =>
      obtain ⟨hn, b, hb, rfl⟩ := ht.mem_bodiesOf_withoutUnits.1 hbody
      obtain ⟨m, hchain, hmem⟩ := (ht.mem_closedBodies_iff hn).1 hb
      have hrule := derives_of_hasUnit hchain (derives_rule_iff.2 ⟨_, hmem, ihv⟩)
      exact hrule.append ihw
  · intro h
    induction h with
    | nil => exact .nil
    | token _ ih => exact .token ih
    | @rule n body xs v w hbody _ _ ihv ihw =>
      have hn := mem_names_of_mem_bodiesOf hbody
      rcases ht.unit_or_named hisolated hlength hbody with ⟨m, rfl⟩ | ⟨b, rfl⟩
      · obtain ⟨body, hbody', hv⟩ := derives_rule_iff.1 ihv
        obtain ⟨hm, b, hb, rfl⟩ := ht.mem_bodiesOf_withoutUnits.1 hbody'
        obtain ⟨m', hchain, hmem⟩ := (ht.mem_closedBodies_iff hm).1 hb
        have hb' := (ht.mem_closedBodies_iff hn).2 ⟨m', hchain.head hbody, hmem⟩
        exact .rule (ht.mem_bodiesOf_withoutUnits.2 ⟨hn, b, hb', rfl⟩) hv ihw
      · have hb := (ht.mem_closedBodies_iff hn).2 ⟨n, .refl, hbody⟩
        exact .rule (ht.mem_bodiesOf_withoutUnits.2 ⟨hn, b, hb, rfl⟩) ihv ihw

end Table

end NormalForm

end GrammarRepair
