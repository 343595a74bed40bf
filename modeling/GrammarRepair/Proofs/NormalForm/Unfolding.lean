import GrammarRepair.NormalForm.Language
import GrammarRepair.Proofs.MapState
import Mathlib.Data.List.Nodup

/-!
Fresh rules with a single production. Where such a rule stands, its body may stand as well, so a
table with fresh rules means what it meant before if its old productions come back when all fresh
rules are replaced by their bodies. Main statement: the old rules derive the same strings.
-/

namespace GrammarRepair

namespace NormalForm

namespace Table

variable {t t' : Table} {xs ys : List Sym} {v w : List String} {n : String}

@[simp] theorem names_append (t t' : Table) : (t ++ t').names = t.names ++ t'.names :=
  List.map_append

theorem names_flatMap {α : Type} (f : α → Table) (xs : List α) :
    names (xs.flatMap f) = xs.flatMap fun x => (f x).names :=
  List.map_flatMap

theorem mem_names {row : Row} (h : row ∈ t) : row.name ∈ t.names := List.mem_map_of_mem h

theorem exists_row_of_mem_bodiesOf {body : List Sym} (h : body ∈ t.bodiesOf n) :
    ∃ row ∈ t, row.name = n ∧ body ∈ row.bodies := by
  unfold bodiesOf at h
  split at h
  · next row hfind =>
    exact ⟨row, List.mem_of_find?_eq_some hfind, by simpa using List.find?_some hfind, h⟩
  · cases h

theorem mem_names_of_mem_bodiesOf {body : List Sym} (h : body ∈ t.bodiesOf n) : n ∈ t.names := by
  obtain ⟨row, hrow, rfl, -⟩ := exists_row_of_mem_bodiesOf h
  exact mem_names hrow

theorem bodiesOf_of_mem (hnodup : t.names.Nodup) {row : Row} (h : row ∈ t) :
    t.bodiesOf row.name = row.bodies := by
  have hunique : ∀ row' ∈ t, row'.name = row.name → row' = row := by
    intro row' h' hname
    exact List.inj_on_of_nodup_map hnodup h' h hname
  unfold bodiesOf
  split
  · next row' hfind =>
    have hname : row'.name = row.name := by simpa using List.find?_some hfind
    rw [hunique row' (List.mem_of_find?_eq_some hfind) hname]
  · next hnone =>
    have hne := List.find?_eq_none.1 hnone row h
    simp at hne

def AllBodies (t : Table) (P : List Sym → Prop) : Prop := ∀ row ∈ t, ∀ body ∈ row.bodies, P body

/-- A token occurs in a production. -/
def HasToken (t : Table) (text : String) : Prop :=
  ∃ row ∈ t, ∃ body ∈ row.bodies, .token text ∈ body

/-- Rules have distinct names, and productions consist of one or more symbols that exist. -/
structure WellFormed (t : Table) : Prop where
  nodup : t.names.Nodup
  closed : t.AllBodies fun body => ∀ n, .rule n ∈ body → n ∈ t.names
  nonempty : t.AllBodies (· ≠ [])

theorem derives_nil_iff : t.Derives [] w ↔ w = [] := by
  constructor
  · intro h
    cases h
    rfl
  · rintro rfl
    exact .nil

theorem derives_append_iff :
    t.Derives (xs ++ ys) w ↔ ∃ u v, w = u ++ v ∧ t.Derives xs u ∧ t.Derives ys v := by
  constructor
  · intro h
    induction xs generalizing w with
    | nil => exact ⟨[], w, rfl, .nil, h⟩
    | cons x xs ih =>
      rw [List.cons_append] at h
      cases h with
      | token h =>
        obtain ⟨u, v, rfl, hu, hv⟩ := ih h
        exact ⟨_ :: u, v, rfl, .token hu, hv⟩
      | @rule n body _ u _ hbody hu h =>
        obtain ⟨v, v', rfl, hv, hv'⟩ := ih h
        exact ⟨u ++ v, v', (List.append_assoc _ _ _).symm, .rule hbody hu hv, hv'⟩
  · rintro ⟨u, v, rfl, hu, hv⟩
    exact hu.append hv

/-- A rule derives what its bodies derive. -/
theorem derives_rule_iff : t.Derives [.rule n] w ↔ ∃ body ∈ t.bodiesOf n, t.Derives body w := by
  constructor
  · intro h
    cases h with
    | rule hbody hv hw =>
      obtain rfl := derives_nil_iff.1 hw
      rw [List.append_nil]
      exact ⟨_, hbody, hv⟩
  · rintro ⟨body, hbody, hv⟩
    simpa using Derives.rule hbody hv .nil

/-- `t.Unfolds old xs ys`: replacing the rules of `xs` that are not old by their only bodies, again
and again, gives `ys`. -/
inductive Unfolds (t : Table) (old : List String) : List Sym → List Sym → Prop
  | nil : Unfolds t old [] []
  | token {text : String} {xs ys : List Sym} (h : Unfolds t old xs ys) :
      Unfolds t old (.token text :: xs) (.token text :: ys)
  | rule {n : String} {xs ys : List Sym} (hold : n ∈ old) (h : Unfolds t old xs ys) :
      Unfolds t old (.rule n :: xs) (.rule n :: ys)
  | fresh {n : String} {body xs ys zs : List Sym} (hfresh : n ∉ old)
      (hbodies : t.bodiesOf n = [body]) (hbody : Unfolds t old body ys) (h : Unfolds t old xs zs) :
      Unfolds t old (.rule n :: xs) (ys ++ zs)

theorem unfolds_self {old : List String} (h : ∀ n, .rule n ∈ xs → n ∈ old) :
    t.Unfolds old xs xs := by
  induction xs with
  | nil => exact .nil
  | cons x xs ih =>
    have hrest := ih fun n hn => h n (List.mem_cons_of_mem _ hn)
    cases x with
    | rule n => exact .rule (h n (by simp)) hrest
    | token text => exact .token hrest

/-- There is but one way to unfold. -/
theorem Unfolds.unique {old : List String} {zs : List Sym} (h : t.Unfolds old xs ys)
    (h' : t.Unfolds old xs zs) : zs = ys := by
  induction h generalizing zs with
  | nil =>
    cases h'
    rfl
  | token h ih =>
    cases h' with
    | token h' => rw [ih h']
  | rule hold h ih =>
    cases h' with
    | rule _ h' => rw [ih h']
    | fresh hfresh => exact absurd hold hfresh
  | fresh hfresh hbodies hbody h ihbody ih =>
    cases h' with
    | rule hold => exact absurd hold hfresh
    | fresh _ hbodies' hbody' h' =>
      obtain rfl := List.singleton_inj.1 (hbodies.symm.trans hbodies')
      rw [ihbody hbody', ih h']

theorem Unfolds.derives {old : List String} (h : t.Unfolds old xs ys) (hw : t.Derives ys w) :
    t.Derives xs w := by
  induction h generalizing w with
  | nil => exact hw
  | token h ih =>
    cases hw with
    | token hw => exact .token (ih hw)
  | rule hold h ih =>
    cases hw with
    | rule hbody hv hw => exact .rule hbody hv (ih hw)
  | fresh hfresh hbodies hbody h ihbody ih =>
    obtain ⟨u, v, rfl, hu, hv⟩ := derives_append_iff.1 hw
    have hmem : _ ∈ t.bodiesOf _ := hbodies ▸ List.mem_singleton_self _
    exact .rule hmem (ihbody hu) (ih hv)

/-- The second table has the productions of the first, up to fresh rules. -/
def Refines (t t' : Table) : Prop :=
  ∀ n ∈ t.names, List.Forall₂ (t'.Unfolds t.names) (t'.bodiesOf n) (t.bodiesOf n)

theorem Refines.derives (h : t.Refines t') (hw : t.Derives xs w) : t'.Derives xs w := by
  induction hw with
  | nil => exact .nil
  | token _ ih => exact .token ih
  | rule hbody _ _ ihv ihw =>
    have hbodies := h _ (mem_names_of_mem_bodiesOf hbody)
    obtain ⟨body', hbody', hunfolds⟩ := exists_of_mem_right hbodies hbody
    exact .rule hbody' (hunfolds.derives ihv) ihw

/-- Whatever symbols with fresh rules among them derive, they derive once unfolded. -/
theorem Refines.derives_of_unfolds (h : t.Refines t') (hw : t'.Derives xs w)
    (hunfolds : t'.Unfolds t.names xs ys) : t.Derives ys w := by
  induction hw generalizing ys with
  | nil =>
    cases hunfolds
    exact .nil
  | token _ ih =>
    cases hunfolds with
    | token hunfolds => exact .token (ih hunfolds)
  | rule hbody _ _ ihv ihw =>
    cases hunfolds with
    | rule hold hunfolds =>
      obtain ⟨body', hbody', hunfolds'⟩ := exists_of_mem_left (h _ hold) hbody
      exact .rule hbody' (ihv hunfolds') (ihw hunfolds)
    | fresh hfresh hbodies hunfolds' hunfolds =>
      rw [hbodies, List.mem_singleton] at hbody
      subst hbody
      exact (ihv hunfolds').append (ihw hunfolds)

theorem Refines.derives_rule_iff (h : t.Refines t') (hn : n ∈ t.names) :
    t'.Derives [.rule n] w ↔ t.Derives [.rule n] w :=
  ⟨fun hw => h.derives_of_unfolds hw (.rule hn .nil), h.derives⟩

end Table

end NormalForm

end GrammarRepair
