import GrammarRepair.Proofs.NormalForm.Unfolding
import GrammarRepair.Source.Language

/-!
Written grammars that are in order. Merging leaves one rule of each name, alternatives without words
are gone, and no reference leads nowhere. Main statement: the rule table of such a grammar is well
formed and derives what the grammar derives.
-/

namespace GrammarRepair

namespace Written

theorem exists_first {rules : List WrittenRule} {text : String}
    (h : text ∈ distinct (rules.map (·.name.text))) :
    ∃ first, rules.find? (·.name.text == text) = some first ∧ first.name.text = text := by
  rw [mem_distinct, List.mem_map] at h
  obtain ⟨r, hr, rfl⟩ := h
  obtain ⟨first, hfirst⟩ := Option.isSome_iff_exists.1
    (List.find?_isSome.2 ⟨r, hr, by simp⟩ : (rules.find? (·.name.text == r.name.text)).isSome)
  exact ⟨first, hfirst, by simpa using List.find?_some hfirst⟩

/-- Merging leaves one rule of each name, with all bodies that the name has. -/
theorem map_merge {α : Type} (view : String → List (List Symbol) → α) (rules : List WrittenRule) :
    (merge rules).map (fun r => view r.name.text r.bodies) =
      (distinct (rules.map (·.name.text))).map fun text =>
        view text ((rules.filter (·.name.text == text)).flatMap (·.bodies)) := by
  rw [merge, List.map_filterMap]
  refine Eq.trans (List.filterMap_congr (g := some ∘ _) fun text htext => ?_)
    (congrFun List.filterMap_eq_map _)
  obtain ⟨first, hfirst, hname⟩ := exists_first htext
  simp only [hfirst, Option.map_some, hname, Function.comp_apply]

theorem names_merge (rules : List WrittenRule) :
    (merge rules).map (·.name.text) = distinct (rules.map (·.name.text)) :=
  (map_merge (fun text _ => text) rules).trans (List.map_id _)

theorem exists_of_mem_merge {rules : List WrittenRule} {r : WrittenRule} {body : List Symbol}
    (hr : r ∈ merge rules) (hbody : body ∈ r.bodies) : ∃ r' ∈ rules, body ∈ r'.bodies := by
  obtain ⟨text, -, h⟩ := List.mem_filterMap.1 hr
  obtain ⟨first, -, rfl⟩ := Option.map_eq_some_iff.1 h
  obtain ⟨r', hr', hbody⟩ := List.mem_flatMap.1 hbody
  exact ⟨r', (List.mem_filter.1 hr').1, hbody⟩

theorem exists_mem_merge {rules : List WrittenRule} {r : WrittenRule} {body : List Symbol}
    (hr : r ∈ rules) (hbody : body ∈ r.bodies) : ∃ r' ∈ merge rules, body ∈ r'.bodies := by
  have hsome : (rules.find? (·.name.text == r.name.text)).isSome = true :=
    List.find?_isSome.2 ⟨r, hr, by simp⟩
  obtain ⟨first, hfirst⟩ := Option.isSome_iff_exists.1 hsome
  have hname := (mem_distinct _ _).2 (List.mem_map_of_mem (f := (·.name.text)) hr)
  refine ⟨_, List.mem_filterMap.2 ⟨_, hname, Option.map_eq_some_iff.2 ⟨first, hfirst, rfl⟩⟩, ?_⟩
  exact List.mem_flatMap.2 ⟨r, List.mem_filter.2 ⟨hr, by simp⟩, hbody⟩

theorem ne_nil_of_mem_ruleOf (d : Definition) (tokens : List Lexeme) :
    ∀ body ∈ (ruleOf d tokens).1.bodies, body ≠ [] := by
  have hbodies := mapState_forall₂
    (R := fun _ (a : Alternative) (body : List Symbol) => body.length = a.words.length)
    (fun a tokens => length_mapState symbolOf a.words tokens) (fun _ _ _ _ h => h)
    (d.alternatives.filter (!·.words.isEmpty)) tokens
  intro body hbody
  obtain ⟨a, ha, hlength⟩ := exists_of_mem_right hbodies hbody
  have hwords : a.words ≠ [] := by simpa using (List.mem_filter.1 ha).2
  rintro rfl
  exact hwords (List.length_eq_zero_iff.1 hlength.symm)

theorem ne_nil_of_mem_ofSheet {s : Sheet} {r : WrittenRule} (hr : r ∈ (ofSheet s).rules) :
    ∀ body ∈ r.bodies, body ≠ [] := by
  have hrules := mapState_forall₂
    (R := fun _ (_ : Definition) (r : WrittenRule) => ∀ body ∈ r.bodies, body ≠ [])
    ne_nil_of_mem_ruleOf (fun _ _ _ _ h => h) s.definitions (s.declared.foldl addToken [])
  intro body hbody
  obtain ⟨r', hr', hbody'⟩ := exists_of_mem_merge hr hbody
  obtain ⟨d, -, hne⟩ := exists_of_mem_right hrules hr'
  exact hne body hbody'

/-- What reading a grammar promises of it. -/
structure InOrder (g : Written) : Prop where
  nodup : (g.rules.map (·.name.text)).Nodup
  nonempty : ∀ r ∈ g.rules, ∀ body ∈ r.bodies, body ≠ []
  closed : ∀ r ∈ g.rules, ∀ body ∈ r.bodies, ∀ name, .rule name ∈ body → g.hasRule name.text = true
  start : ∃ name, g.start = some name ∧ g.hasRule name.text = true

theorem hasRule_iff {g : Written} {text : String} :
    g.hasRule text = true ↔ text ∈ g.rules.map (·.name.text) := by
  simp [hasRule]

/-- A grammar without errors has a start rule, and rules for all references. -/
theorem closed_of_errors_eq_nil {g : Written} (h : g.errors = []) :
    (∃ name, g.start = some name ∧ g.hasRule name.text = true) ∧
      ∀ r ∈ g.rules, ∀ body ∈ r.bodies, ∀ name, .rule name ∈ body → g.hasRule name.text = true := by
  obtain ⟨hstart, hunknown⟩ := List.append_eq_nil_iff.1 h
  constructor
  · cases hg : g.start with
    | none => simp [startErrors, hg] at hstart
    | some name =>
      refine ⟨name, rfl, ?_⟩
      by_contra hnone
      simp [startErrors, hg, hnone] at hstart
  · intro r hr body hbody name hname
    by_contra hnone
    have hmem : Symbol.rule name ∈ g.rules.flatMap (·.bodies.flatten) :=
      List.mem_flatMap.2 ⟨r, hr, List.mem_flatten.2 ⟨body, hbody, hname⟩⟩
    have herror := List.filterMap_eq_nil_iff.1 hunknown _ hmem
    simp [hnone] at herror

theorem errors_eq_nil {g : Written} {name : Lexeme} (hstart : g.start = some name)
    (hrule : g.hasRule name.text = true)
    (hclosed : ∀ r ∈ g.rules, ∀ body ∈ r.bodies, ∀ name, .rule name ∈ body →
      g.hasRule name.text = true) : g.errors = [] := by
  have hnone : g.startErrors = [] := by
    rw [startErrors, hstart]
    exact if_pos hrule
  have hunknown : g.unknownRules = [] := by
    refine List.filterMap_eq_nil_iff.2 fun x hx => ?_
    obtain ⟨r, hr, hx⟩ := List.mem_flatMap.1 hx
    obtain ⟨body, hbody, hx⟩ := List.mem_flatten.1 hx
    cases x with
    | token name => rfl
    | rule name => exact if_pos (hclosed r hr body hbody name hx)
  rw [errors, hnone, hunknown, List.append_nil]

theorem ofSheet_of_read {text : String} {g : Written} (h : read text = .ok g) :
    g = ofSheet (Sheet.read text) ∧ (Sheet.read text).errors = [] ∧ g.errors = [] := by
  unfold read at h
  simp only at h
  split at h
  · next hform =>
    split at h
    · next hreferences =>
      cases h
      exact ⟨rfl, List.isEmpty_iff.1 hform, List.isEmpty_iff.1 hreferences⟩
    · cases h
  · cases h

theorem inOrder_of_read {text : String} {g : Written} (h : read text = .ok g) : g.InOrder := by
  obtain ⟨rfl, -, herrors⟩ := ofSheet_of_read h
  obtain ⟨hstart, hclosed⟩ := closed_of_errors_eq_nil herrors
  refine ⟨?_, fun r hr => ne_nil_of_mem_ofSheet hr, hclosed, hstart⟩
  have hnames := names_merge
    (mapState ruleOf (Sheet.read text).definitions ((Sheet.read text).declared.foldl addToken [])).1
  rw [show (ofSheet (Sheet.read text)).rules = merge (mapState ruleOf _ _).1 from rfl, hnames]
  exact nodup_distinct _

end Written

namespace NormalForm

variable {g : Written}

theorem names_tableOf (g : Written) : (tableOf g).names = g.rules.map (·.name.text) := by
  simp [tableOf, Table.names]

theorem exists_of_mem_tableOf {row : Row} {body : List Sym} (hrow : row ∈ tableOf g)
    (hbody : body ∈ row.bodies) :
    ∃ r ∈ g.rules, ∃ body' ∈ r.bodies, row.name = r.name.text ∧ body = body'.map .ofSymbol := by
  obtain ⟨r, hr, rfl⟩ := List.mem_map.1 hrow
  obtain ⟨body', hbody', rfl⟩ := List.mem_map.1 hbody
  exact ⟨r, hr, body', hbody', rfl, rfl⟩

theorem ofSymbol_eq_rule {x : Symbol} {n : String} (h : Sym.ofSymbol x = .rule n) :
    ∃ name : Lexeme, x = .rule name ∧ name.text = n := by
  cases x with
  | rule name => exact ⟨name, rfl, by simpa [Sym.ofSymbol] using h⟩
  | token name => simp [Sym.ofSymbol] at h

theorem wellFormed_tableOf (h : g.InOrder) : (tableOf g).WellFormed := by
  refine ⟨by rw [names_tableOf]; exact h.nodup, ?_, ?_⟩
  · intro row hrow body hbody n hn
    obtain ⟨r, hr, body', hbody', -, rfl⟩ := exists_of_mem_tableOf hrow hbody
    obtain ⟨x, hx, hxn⟩ := List.mem_map.1 hn
    obtain ⟨name, rfl, rfl⟩ := ofSymbol_eq_rule hxn
    rw [names_tableOf]
    exact Written.hasRule_iff.1 (h.closed r hr body' hbody' name hx)
  · intro row hrow body hbody
    obtain ⟨r, hr, body', hbody', -, rfl⟩ := exists_of_mem_tableOf hrow hbody
    simpa using h.nonempty r hr body' hbody'

theorem derives_tableOf_iff (h : g.InOrder) (xs : List Symbol) (w : List String) :
    (tableOf g).Derives (xs.map .ofSymbol) w ↔ g.Derives xs w := by
  constructor
  · intro hw
    generalize hys : xs.map Sym.ofSymbol = ys at hw
    induction hw generalizing xs with
    | nil =>
      obtain rfl := List.map_eq_nil_iff.1 hys
      exact .nil
    | token _ ih =>
      obtain ⟨x, xs, rfl, hx, rfl⟩ := List.map_eq_cons_iff.1 hys
      cases x with
      | rule name => simp [Sym.ofSymbol] at hx
      | token name =>
        obtain rfl : name.text = _ := by simpa [Sym.ofSymbol] using hx
        exact .token (ih _ rfl)
    | rule hbody _ _ ihv ihw =>
      obtain ⟨x, xs, rfl, hx, rfl⟩ := List.map_eq_cons_iff.1 hys
      obtain ⟨name, rfl, rfl⟩ := ofSymbol_eq_rule hx
      obtain ⟨row, hrow, hname, hbody⟩ := Table.exists_row_of_mem_bodiesOf hbody
      obtain ⟨r, hr, body', hbody', hrname, rfl⟩ := exists_of_mem_tableOf hrow hbody
      exact .rule hr (hrname.symm.trans hname) hbody' (ihv _ rfl) (ihw _ rfl)
  · intro hw
    induction hw with
    | nil => exact .nil
    | token _ ih => exact .token ih
    | @rule name r body xs v w hr hname hbody _ _ ihv ihw =>
      have hrow : (⟨r.name.text, r.bodies.map (·.map .ofSymbol)⟩ : Row) ∈ tableOf g :=
        List.mem_map_of_mem (f := fun r : WrittenRule => (⟨r.name.text, _⟩ : Row)) hr
      have hbodies := Table.bodiesOf_of_mem (wellFormed_tableOf h).nodup hrow
      have hmem : body.map Sym.ofSymbol ∈ (tableOf g).bodiesOf name.text := by
        rw [← hname, hbodies]
        exact List.mem_map_of_mem hbody
      exact .rule hmem ihv ihw

end NormalForm

end GrammarRepair
