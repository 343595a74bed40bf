import GrammarRepair.NormalForm.StandIn
import GrammarRepair.Proofs.NormalForm.Unfolding

/-!
Standing in for tokens. The names that are made up differ from all others, and each stands for one
token, so the new table refines the old one. Main statement: it does, it is as well formed as the
old one, and its longer productions are made of rules only.
-/

namespace GrammarRepair

namespace NormalForm

/-- Tokens stand alone. -/
def Isolated (body : List Sym) : Prop := 1 < body.length → ∀ x ∈ body, ∃ n, x = .rule n

namespace StandIns

variable {s : StandIns} {old : List String} {text name : String}

/-- The taken names are the old ones and those of the stand-ins, all distinct, and no token has two
stand-ins. -/
structure Fresh (old : List String) (s : StandIns) : Prop where
  taken_eq : s.taken = (s.rules.map (·.2)).reverse ++ old
  nodup_taken : s.taken.Nodup
  nodup_tokens : (s.rules.map (·.1)).Nodup

theorem Fresh.ruleFor (h : Fresh old s) (text : String) : Fresh old (s.ruleFor text).2 := by
  unfold StandIns.ruleFor
  split
  · exact h
  · next hlookup =>
    refine ⟨?_, ?_, ?_⟩
    · simp [h.taken_eq]
    · exact List.nodup_cons.2 ⟨freshName_not_mem _ _, h.nodup_taken⟩
    · rw [List.map_append, List.map_singleton, ← List.concat_eq_append]
      refine h.nodup_tokens.concat fun hmem => ?_
      obtain ⟨p, hp, rfl⟩ := List.mem_map.1 hmem
      simpa using List.lookup_eq_none_iff.1 hlookup p hp

theorem mem_rules_ruleFor (text : String) (s : StandIns) :
    (text, (s.ruleFor text).1) ∈ (s.ruleFor text).2.rules := by
  unfold ruleFor
  split
  · next name hlookup =>
    obtain ⟨l, l', hrules, -⟩ := List.lookup_eq_some_iff.1 hlookup
    simp [hrules]
  · simp

theorem rules_subset_ruleFor (text : String) (s : StandIns) :
    s.rules ⊆ (s.ruleFor text).2.rules := by
  unfold ruleFor
  split
  · exact List.Subset.refl _
  · exact List.subset_append_left _ _

inductive Replaces (rules : List (String × String)) : Sym → Sym → Prop
  | same (x : Sym) : Replaces rules x x
  | token {text name : String} (h : (text, name) ∈ rules) :
      Replaces rules (.token text) (.rule name)

theorem Replaces.mono {rules rules' : List (String × String)} (hsub : rules ⊆ rules') {x y : Sym}
    (h : Replaces rules x y) : Replaces rules' x y := by
  cases h with
  | same => exact .same x
  | token h => exact .token (hsub h)

def ReplacesBody (rules : List (String × String)) (body body' : List Sym) : Prop :=
  List.Forall₂ (Replaces rules) body body' ∧ Isolated body'

def ReplacesRow (rules : List (String × String)) (row row' : Row) : Prop :=
  row'.name = row.name ∧ List.Forall₂ (ReplacesBody rules) row.bodies row'.bodies

theorem ReplacesBody.mono {rules rules' : List (String × String)} (hsub : rules ⊆ rules')
    {body body' : List Sym} (h : ReplacesBody rules body body') : ReplacesBody rules' body body' :=
  ⟨h.1.imp fun _ _ hxy => hxy.mono hsub, h.2⟩

theorem ReplacesRow.mono {rules rules' : List (String × String)} (hsub : rules ⊆ rules')
    {row row' : Row} (h : ReplacesRow rules row row') : ReplacesRow rules' row row' :=
  ⟨h.1, h.2.imp fun _ _ hbody => hbody.mono hsub⟩

theorem rules_subset_replaceSym (x : Sym) (s : StandIns) : s.rules ⊆ (replaceSym x s).2.rules := by
  cases x with
  | rule name => exact List.Subset.refl _
  | token text => exact rules_subset_ruleFor text s

section

variable {P : StandIns → Prop}

theorem replaceBody_invariant {body : List Sym}
    (hstep : ∀ text, .token text ∈ body → ∀ s, P s → P (s.ruleFor text).2) (hs : P s) :
    P (replaceBody body s).2 := by
  unfold replaceBody
  split
  · refine mapState_invariant_of_mem (fun x hx s hs => ?_) hs
    cases x with
    | rule name => exact hs
    | token text => exact hstep text hx s hs
  · exact hs

theorem replaceRow_invariant {row : Row}
    (hstep : ∀ body ∈ row.bodies, ∀ text, .token text ∈ body → ∀ s, P s → P (s.ruleFor text).2)
    (hs : P s) : P (replaceRow row s).2 :=
  mapState_invariant_of_mem (f := replaceBody)
    (fun body hbody _ hs => replaceBody_invariant (hstep body hbody) hs) hs

theorem replaceRows_invariant {t : Table}
    (hstep : ∀ text, t.HasToken text → ∀ s, P s → P (s.ruleFor text).2) (hs : P s) :
    P (mapState replaceRow t s).2 :=
  mapState_invariant_of_mem (f := replaceRow)
    (fun row hrow _ hs => replaceRow_invariant
      (fun body hbody text htext => hstep text ⟨row, hrow, body, hbody, htext⟩) hs) hs

end

theorem rules_subset_replaceBody (body : List Sym) (s : StandIns) :
    s.rules ⊆ (replaceBody body s).2.rules :=
  replaceBody_invariant (P := fun s' => s.rules ⊆ s'.rules)
    (fun text _ s' h => List.Subset.trans h (rules_subset_ruleFor text s')) (List.Subset.refl _)

theorem rules_subset_replaceRow (row : Row) (s : StandIns) :
    s.rules ⊆ (replaceRow row s).2.rules :=
  replaceRow_invariant (P := fun s' => s.rules ⊆ s'.rules)
    (fun _ _ text _ s' h => List.Subset.trans h (rules_subset_ruleFor text s'))
    (List.Subset.refl _)

def Covers (P : String → Prop) (s : StandIns) : Prop := ∀ p ∈ s.rules, P p.1

theorem Covers.ruleFor {P : String → Prop} (h : s.Covers P) (htext : P text) :
    (s.ruleFor text).2.Covers P := by
  unfold StandIns.ruleFor
  split
  · exact h
  · intro p hp
    rcases List.mem_append.1 hp with hp | hp
    · exact h p hp
    · obtain rfl := List.mem_singleton.1 hp
      exact htext

theorem replacesBody_replaceBody (body : List Sym) (s : StandIns) :
    ReplacesBody (replaceBody body s).2.rules body (replaceBody body s).1 := by
  unfold replaceBody
  split
  · have hstep : ∀ x s, Replaces (replaceSym x s).2.rules x (replaceSym x s).1 ∧
        ∃ n, (replaceSym x s).1 = .rule n := by
      intro x s
      cases x with
      | rule name => exact ⟨.same _, name, rfl⟩
      | token text => exact ⟨.token (mem_rules_ruleFor text s), _, rfl⟩
    have hsyms := mapState_forall₂ (R := fun s x y => Replaces s.rules x y ∧ ∃ n, y = .rule n) hstep
      (fun x s _ _ h => ⟨h.1.mono (rules_subset_replaceSym x s), h.2⟩) body s
    refine ⟨hsyms.imp fun _ _ h => h.1, fun _ y hy => ?_⟩
    obtain ⟨x, -, -, hrule⟩ := exists_of_mem_right hsyms hy
    exact hrule
  · next hlength => exact ⟨List.forall₂_same.2 fun x _ => .same x, fun h => absurd h hlength⟩

theorem replacesRow_replaceRow (row : Row) (s : StandIns) :
    ReplacesRow (replaceRow row s).2.rules row (replaceRow row s).1 := by
  have hbodies := mapState_forall₂ (R := fun s => ReplacesBody s.rules) replacesBody_replaceBody
    (fun body s _ _ h => h.mono (rules_subset_replaceBody body s)) row.bodies s
  exact ⟨rfl, hbodies⟩

end StandIns

open StandIns

theorem exists_replaceTokens (t : Table) (hnodup : t.names.Nodup) :
    ∃ (s : StandIns) (rows : Table), replaceTokens t = rows ++ s.rows ∧ Fresh t.names s ∧
      List.Forall₂ (ReplacesRow s.rules) t rows ∧ s.Covers t.HasToken := by
  have hfresh : Fresh t.names ⟨t.names, []⟩ := ⟨rfl, hnodup, List.nodup_nil⟩
  have hcovers : (⟨t.names, []⟩ : StandIns).Covers t.HasToken := fun p hp => by cases hp
  refine ⟨(mapState replaceRow t ⟨t.names, []⟩).2, (mapState replaceRow t ⟨t.names, []⟩).1, rfl,
    replaceRows_invariant (fun text _ s hs => hs.ruleFor text) hfresh, ?_,
    replaceRows_invariant (fun text htext s hs => hs.ruleFor htext) hcovers⟩
  exact mapState_forall₂ (R := fun s => ReplacesRow s.rules) replacesRow_replaceRow
    (fun row s _ _ h => h.mono (rules_subset_replaceRow row s)) t _

theorem names_of_replacesRow {rules : List (String × String)} {t rows : Table}
    (h : List.Forall₂ (ReplacesRow rules) t rows) : rows.names = t.names :=
  map_eq_of_forall₂ h fun _ _ hrow => hrow.1

theorem names_rows (s : StandIns) : s.rows.names = s.rules.map (·.2) := by
  simp [StandIns.rows, Table.names]

section

variable {t rows : Table} {s : StandIns} (hfresh : Fresh t.names s)
  (hrows : List.Forall₂ (ReplacesRow s.rules) t rows)

include hfresh

theorem not_mem_names_of_mem_rules {text name : String} (h : (text, name) ∈ s.rules) :
    name ∉ t.names := by
  have hnodup := hfresh.nodup_taken
  rw [hfresh.taken_eq, List.nodup_append] at hnodup
  have hmem : name ∈ (s.rules.map (·.2)).reverse :=
    List.mem_reverse.2 (List.mem_map_of_mem (f := (·.2)) h)
  exact fun hold => hnodup.2.2 name hmem name hold rfl

/-- In a table that holds the stand-ins, replaced symbols unfold to those that were there. -/
theorem unfolds_of_replaces {T : Table} {body body' : List Sym}
    (hbodies : ∀ p ∈ s.rules, T.bodiesOf p.2 = [[.token p.1]])
    (hclosed : ∀ n, .rule n ∈ body → n ∈ t.names)
    (h : List.Forall₂ (Replaces s.rules) body body') : T.Unfolds t.names body' body := by
  induction h with
  | nil => exact .nil
  | @cons x y body body' hxy h ih =>
    have hrest := ih fun n hn => hclosed n (List.mem_cons_of_mem _ hn)
    cases hxy with
    | same =>
      cases x with
      | rule n => exact .rule (hclosed n (by simp)) hrest
      | token text => exact .token hrest
    | token hmem =>
      exact .fresh (not_mem_names_of_mem_rules hfresh hmem) (hbodies _ hmem) (.token .nil) hrest

include hrows

theorem nodup_names_standIns : (rows ++ s.rows).names.Nodup := by
  have hnodup := hfresh.nodup_taken
  rw [hfresh.taken_eq] at hnodup
  rw [Table.names_append, names_of_replacesRow hrows, names_rows]
  exact nodup_of_pushed hnodup

theorem bodiesOf_standIn : ∀ p ∈ s.rules, Table.bodiesOf (rows ++ s.rows) p.2 = [[.token p.1]] := by
  intro p hp
  have hrow : (⟨p.2, [[.token p.1]]⟩ : Row) ∈ rows ++ s.rows :=
    List.mem_append_right _ (List.mem_map.2 ⟨p, hp, rfl⟩)
  exact Table.bodiesOf_of_mem (nodup_names_standIns hfresh hrows) hrow

theorem refines_standIns (ht : t.WellFormed) : t.Refines (rows ++ s.rows) := by
  intro n hn
  obtain ⟨row, hrow, rfl⟩ := List.mem_map.1 hn
  obtain ⟨row', hrow', hname, hbodies⟩ := exists_of_mem_left hrows hrow
  rw [Table.bodiesOf_of_mem ht.nodup hrow, ← hname, Table.bodiesOf_of_mem
    (nodup_names_standIns hfresh hrows) (List.mem_append_left _ hrow')]
  have hunfolds := forall₂_imp_of_mem hbodies fun body hbody body' _ h =>
    unfolds_of_replaces hfresh (bodiesOf_standIn hfresh hrows) (ht.closed row hrow body hbody) h.1
  exact hunfolds.flip

end

theorem exists_of_mem_standIns {t rows : Table} {s : StandIns}
    (hrows : List.Forall₂ (ReplacesRow s.rules) t rows) {row' : Row} {body' : List Sym}
    (hrow' : row' ∈ rows ++ s.rows) (hbody' : body' ∈ row'.bodies) :
    (∃ text name, (text, name) ∈ s.rules ∧ body' = [.token text]) ∨
      ∃ row ∈ t, ∃ body ∈ row.bodies, ReplacesBody s.rules body body' := by
  rcases List.mem_append.1 hrow' with hrow' | hrow'
  · obtain ⟨row, hrow, -, hbodies⟩ := exists_of_mem_right hrows hrow'
    obtain ⟨body, hbody, hreplaces⟩ := exists_of_mem_right hbodies hbody'
    exact .inr ⟨row, hrow, body, hbody, hreplaces⟩
  · obtain ⟨⟨text, name⟩, hrule, rfl⟩ := List.mem_map.1 hrow'
    exact .inl ⟨text, name, hrule, List.mem_singleton.1 hbody'⟩

theorem Table.WellFormed.replaceTokens_refines {t : Table} (ht : t.WellFormed) :
    t.Refines (replaceTokens t) := by
  obtain ⟨s, rows, heq, hfresh, hrows, -⟩ := exists_replaceTokens t ht.nodup
  rw [heq]
  exact refines_standIns hfresh hrows ht

/-- In longer productions there are rules only. -/
theorem Table.WellFormed.isolated_replaceTokens {t : Table} (ht : t.WellFormed) :
    (replaceTokens t).AllBodies Isolated := by
  obtain ⟨s, rows, heq, -, hrows, -⟩ := exists_replaceTokens t ht.nodup
  rw [heq]
  intro row' hrow' body' hbody'
  rcases exists_of_mem_standIns hrows hrow' hbody' with
    ⟨text, -, -, rfl⟩ | ⟨row, -, body, -, hreplaces⟩
  · intro hlength
    simp at hlength
  · exact hreplaces.2

/-- No pass makes up a token. -/
theorem Table.WellFormed.hasToken_of_replaceTokens {t : Table} (ht : t.WellFormed) {text : String}
    (h : (NormalForm.replaceTokens t).HasToken text) : t.HasToken text := by
  obtain ⟨s, rows, heq, -, hrows, hcovers⟩ := exists_replaceTokens t ht.nodup
  rw [heq] at h
  obtain ⟨row', hrow', body', hbody', htext⟩ := h
  rcases exists_of_mem_standIns hrows hrow' hbody' with
    ⟨text', name, hrule, rfl⟩ | ⟨row, hrow, body, hbody, hreplaces⟩
  · obtain rfl : text = text' := by simpa using htext
    exact hcovers _ hrule
  · obtain ⟨x, hx, hxy⟩ := exists_of_mem_right hreplaces.1 htext
    cases hxy with
    | same => exact ⟨row, hrow, body, hbody, hx⟩

theorem Table.WellFormed.replaceTokens {t : Table} (ht : t.WellFormed) :
    (replaceTokens t).WellFormed := by
  obtain ⟨s, rows, heq, hfresh, hrows, -⟩ := exists_replaceTokens t ht.nodup
  rw [heq]
  refine ⟨nodup_names_standIns hfresh hrows, fun row' hrow' body' hbody' => ?_,
    fun row' hrow' body' hbody' => ?_⟩
  · intro n hn
    rw [names_append, names_of_replacesRow hrows, names_rows]
    rcases exists_of_mem_standIns hrows hrow' hbody' with
      ⟨text, -, -, rfl⟩ | ⟨row, hrow, body, hbody, h⟩
    · simp at hn
    · obtain ⟨x, hx, hxn⟩ := exists_of_mem_right h.1 hn
      cases hxn with
      | same => exact List.mem_append_left _ (ht.closed row hrow body hbody n hx)
      | token hmem => exact List.mem_append_right _ (List.mem_map_of_mem (f := (·.2)) hmem)
  · rcases exists_of_mem_standIns hrows hrow' hbody' with
      ⟨text, -, -, rfl⟩ | ⟨row, hrow, body, hbody, h⟩
    · simp
    · have hne := ht.nonempty row hrow body hbody
      rintro rfl
      exact hne (List.forall₂_nil_right_iff.1 h.1)

end NormalForm

end GrammarRepair
