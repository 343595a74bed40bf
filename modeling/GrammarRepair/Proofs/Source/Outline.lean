import GrammarRepair.Proofs.Source.Classification
import GrammarRepair.Proofs.Source.Rendering

/-!
What a rendered outline means. While its rules are read, the known texts lie between those declared and
those of all tokens: so a bare token is known when it comes, a rule never is, and every word becomes the
symbol that the outline has in its place. Main statement: every rendering is read without error, as the
rules, the tokens and the start rule of the outline.
-/

namespace GrammarRepair

open NormalForm Outline Written

variable {o : Outline} {s : Sheet}

/-- Adds a text at its first occurrence. -/
def addText (texts : List String) (text : String) : List String :=
  if texts.contains text then texts else texts ++ [text]

def addItem (texts : List String) (x : Item) : List String :=
  match x.tokenText? with
  | some text => addText texts text
  | none => texts

theorem texts_addToken (tokens : List Lexeme) (name : Lexeme) :
    (addToken tokens name).map (·.text) = addText (tokens.map (·.text)) name.text := by
  by_cases hknown : name.text ∈ tokens.map (·.text)
  · rw [addToken, if_pos (any_text_iff.2 hknown), addText, if_pos (List.contains_iff_mem.2 hknown)]
  · rw [addToken, if_neg (mt any_text_iff.1 hknown), addText,
      if_neg (mt List.contains_iff_mem.1 hknown), List.map_append, List.map_singleton]

theorem mem_addText {texts : List String} {text text' : String} :
    text' ∈ addText texts text ↔ text' ∈ texts ∨ text' = text := by
  rw [addText]
  split
  · next hknown =>
    refine (or_iff_left_of_imp ?_).symm
    rintro rfl
    exact List.contains_iff_mem.1 hknown
  · rw [List.mem_append, List.mem_singleton]

theorem addText_of_mem {texts : List String} {text : String} (h : text ∈ texts) :
    addText texts text = texts :=
  if_pos (List.contains_iff_mem.2 h)

theorem foldl_addItem (texts : List String) (xs : List Item) :
    xs.foldl addItem texts = (xs.filterMap Item.tokenText?).foldl addText texts := by
  induction xs generalizing texts with
  | nil => rfl
  | cons x xs ih =>
    rw [List.foldl_cons, ih, addItem, List.filterMap_cons]
    cases x.tokenText? with
    | none => rfl
    | some text => rfl

structure Outline.Knows (o : Outline) (texts : List String) : Prop where
  declared : ∀ text ∈ o.declared, text ∈ texts
  tokenTexts : ∀ text ∈ texts, text ∈ o.tokenTexts

theorem Outline.Knows.addItem {texts : List String} {x : Item} (h : o.Knows texts)
    (hx : x ∈ o.items) : o.Knows (addItem texts x) := by
  rw [GrammarRepair.addItem]
  split
  · next text htext =>
    refine ⟨fun text' ht => mem_addText.2 (.inl (h.declared text' ht)), fun text' ht => ?_⟩
    rcases mem_addText.1 ht with ht | rfl
    · exact h.tokenTexts text' ht
    · exact List.mem_append_right _ (List.mem_filterMap.2 ⟨x, hx, htext⟩)
  · exact h

theorem symbolOf_spells (ho : o.WellFormed) {x : Item} (hx : x ∈ o.items) {w : Word}
    (hw : w.Spells x.spelling) (tokens : List Lexeme) (hknows : o.Knows (tokens.map (·.text))) :
    Sym.ofSymbol (symbolOf w tokens).1 = x.sym ∧
      (symbolOf w tokens).2.map (·.text) = addItem (tokens.map (·.text)) x := by
  cases x with
  | rule name =>
    have hunknown : w.lexeme.text ∉ tokens.map (·.text) := by
      rw [hw.text]
      exact fun hmem => ho.rule_apart name hx (hknows.tokenTexts name hmem)
    have hbare : w.quoted = false := hw.quoted
    rw [symbolOf, if_neg (Bool.eq_false_iff.1 hbare), if_neg (mt any_text_iff.1 hunknown)]
    exact ⟨congrArg Sym.rule hw.text, rfl⟩
  | token spelling =>
    cases spelling with
    | bare name =>
      have hknown : name ∈ tokens.map (·.text) :=
        hknows.declared name (ho.bare_declared name hx)
      have hbare : w.quoted = false := hw.quoted
      rw [symbolOf, if_neg (Bool.eq_false_iff.1 hbare), if_pos (any_text_iff.2 (hw.text ▸ hknown))]
      exact ⟨congrArg Sym.token hw.text, (addText_of_mem hknown).symm⟩
    | quoted q text =>
      have hquoted : w.quoted = true := hw.quoted
      rw [symbolOf, if_pos hquoted]
      refine ⟨congrArg Sym.token hw.text, ?_⟩
      rw [texts_addToken, hw.text]
      rfl

def Outline.Clause.row (c : Clause) : Row := ⟨c.name, c.bodies.map (·.map Item.sym)⟩

def WrittenRule.row (r : WrittenRule) : Row := ⟨r.name.text, r.bodies.map (·.map Sym.ofSymbol)⟩

theorem bodyOf_spells (ho : o.WellFormed) {body : List Item} (hbody : ∀ x ∈ body, x ∈ o.items)
    {a : Alternative} (ha : a.Spells body) (tokens : List Lexeme)
    (hknows : o.Knows (tokens.map (·.text))) :
    (bodyOf a tokens).1.map Sym.ofSymbol = body.map Item.sym ∧
      (bodyOf a tokens).2.map (·.text) = body.foldl addItem (tokens.map (·.text)) ∧
        o.Knows (body.foldl addItem (tokens.map (·.text))) := by
  refine mapState_follows (P := o.Knows) ha (fun w x hx hw tokens hknows => ?_) tokens hknows
  obtain ⟨hsymbol, htexts⟩ := symbolOf_spells ho (hbody x hx) hw tokens hknows
  exact ⟨hsymbol, htexts, hknows.addItem (hbody x hx)⟩

/-- No alternative of a clause is without words. -/
theorem words_ne_nil (ho : o.WellFormed) {c : Clause} (hc : c ∈ o.clauses) {d : Definition}
    (hd : d.Spells c) : ∀ a ∈ d.alternatives, a.words ≠ [] := by
  intro a ha hnil
  obtain ⟨body, hbody, hwords⟩ := exists_of_mem_left hd.alternatives ha
  rw [Alternative.Spells, hnil] at hwords
  exact ho.nonempty c hc body hbody (List.forall₂_nil_left_iff.1 hwords)

theorem ruleOf_spells (ho : o.WellFormed) {c : Clause} (hc : c ∈ o.clauses) {d : Definition}
    (hd : d.Spells c) (tokens : List Lexeme) (hknows : o.Knows (tokens.map (·.text))) :
    (ruleOf d tokens).1.row = c.row ∧
      (ruleOf d tokens).2.map (·.text) = c.items.foldl addItem (tokens.map (·.text)) ∧
        o.Knows (c.items.foldl addItem (tokens.map (·.text))) := by
  have hall : d.alternatives.filter (!·.words.isEmpty) = d.alternatives :=
    List.filter_eq_self.2 fun a ha => by simpa using words_ne_nil ho hc hd a ha
  obtain ⟨hbodies, htexts, hknows⟩ := mapState_follows (f := bodyOf) (P := o.Knows)
    hd.alternatives (fun a body hbody ha tokens hknows => bodyOf_spells ho
      (fun x hx => List.mem_flatMap.2 ⟨c, hc, List.mem_flatten.2 ⟨body, hbody, hx⟩⟩) ha tokens
        hknows) tokens hknows
  rw [← List.foldl_flatten] at htexts hknows
  rw [ruleOf, hall]
  exact ⟨congrArg₂ Row.mk hd.name hbodies, htexts, hknows⟩

theorem definitions_spell (ho : o.WellFormed) (h : s.Spells o) (tokens : List Lexeme)
    (hknows : o.Knows (tokens.map (·.text))) :
    (mapState ruleOf s.definitions tokens).1.map (·.row) = o.clauses.map (·.row) ∧
      (mapState ruleOf s.definitions tokens).2.map (·.text) =
        o.items.foldl addItem (tokens.map (·.text)) := by
  obtain ⟨hrows, htexts, -⟩ := mapState_follows (f := ruleOf) (P := o.Knows)
    (g := fun texts c => c.items.foldl addItem texts) h.definitions
    (fun d c hc hd tokens hknows => ruleOf_spells ho hc hd tokens hknows) tokens hknows
  rw [← List.foldl_flatMap] at htexts
  exact ⟨hrows, htexts⟩

theorem declarations_spell (h : s.Spells o) :
    s.declared.map (·.text) = o.declared ∧ s.starts.map (·.text) = o.starts := by
  obtain ⟨declarations, definitions, stoppedBy⟩ := s
  obtain ⟨headers, clauses, closed⟩ := o
  obtain ⟨hdeclarations, -, -⟩ := h
  simp only at hdeclarations
  induction hdeclarations with
  | nil => exact ⟨rfl, rfl⟩
  | @cons declaration header declarations headers hspells hrest ih =>
    obtain ⟨hdeclared, hstarts⟩ := ih
    cases declaration with
    | tokens names =>
      cases header with
      | tokens spellings =>
        have hnames : names.map (·.text) = spellings.map (·.text) := hspells
        refine ⟨?_, hstarts⟩
        rw [Outline.declared, Sheet.declared, List.flatMap_cons, List.flatMap_cons, List.map_append]
        exact congrArg₂ _ hnames hdeclared
      | start name => cases hspells
    | start name =>
      cases header with
      | tokens spellings => cases hspells
      | start name' =>
        have hname : name.text = name' := hspells
        exact ⟨hdeclared, congrArg₂ List.cons hname hstarts⟩

theorem texts_declaredTokens (h : s.Spells o) :
    (declaredTokens s).map (·.text) = o.declared.foldl addText [] := by
  have hfold : ∀ (names tokens : List Lexeme), (names.foldl addToken tokens).map (·.text) =
      (names.map (·.text)).foldl addText (tokens.map (·.text)) := by
    intro names
    induction names with
    | nil => exact fun tokens => rfl
    | cons name names ih =>
      intro tokens
      rw [List.foldl_cons, ih, texts_addToken, List.map_cons, List.foldl_cons]
  rw [declaredTokens, hfold, (declarations_spell h).1, List.map_nil]

theorem knows_declaredTokens (h : s.Spells o) : o.Knows ((declaredTokens s).map (·.text)) := by
  have hmem : ∀ text, text ∈ (declaredTokens s).map (·.text) ↔ text ∈ o.declared := by
    intro text
    rw [declaredTokens, mem_texts_foldl_addToken, (declarations_spell h).1]
    simp
  exact ⟨fun text ht => (hmem text).2 ht, fun text ht => List.mem_append_left _ ((hmem text).1 ht)⟩

theorem tokens_spell (ho : o.WellFormed) (h : s.Spells o) :
    (ofSheet s).tokens.map (·.text) = distinct o.tokenTexts := by
  have htokens : (ofSheet s).tokens = (mapState ruleOf s.definitions (declaredTokens s)).2 := rfl
  rw [htokens, (definitions_spell ho h _ (knows_declaredTokens h)).2, texts_declaredTokens h,
    foldl_addItem, ← List.foldl_append]
  exact (distinct_eq_foldl o.tokenTexts).symm

theorem start_spells (h : s.Spells o) : (ofSheet s).start.map (·.text) = o.start := by
  have hstart : (ofSheet s).start = (s.starts.head? <|> s.definitions.head?.map (·.name)) := rfl
  have hhead : (s.definitions.head?.map (·.name)).map (·.text) = o.clauses.head?.map (·.name) := by
    have hdefinitions := h.definitions
    generalize s.definitions = definitions, o.clauses = clauses at hdefinitions ⊢
    cases hdefinitions with
    | nil => rfl
    | cons hd => exact congrArg some hd.name
  rw [hstart, Outline.start, ← (declarations_spell h).2, List.head?_map, ← hhead]
  cases s.starts.head? with
  | none => rfl
  | some name => rfl

theorem table_spells (ho : o.WellFormed) (h : s.Spells o) : tableOf (ofSheet s) = o.table := by
  have hrows := (definitions_spell ho h _ (knows_declaredTokens h)).1
  have hrules : (ofSheet s).rules =
    merge (mapState ruleOf s.definitions (declaredTokens s)).1 := rfl
  generalize (mapState ruleOf s.definitions (declaredTokens s)).1 = rules at hrows hrules
  have htable : tableOf (ofSheet s) = (distinct ((rules.map (·.row)).map (·.name))).map fun name =>
      ⟨name, ((rules.map (·.row)).filter (·.name == name)).flatMap (·.bodies)⟩ := by
    rw [tableOf, hrules, map_merge fun text bodies => (⟨text, bodies.map (·.map Sym.ofSymbol)⟩ : Row)]
    simp only [List.map_map, List.filter_map, List.flatMap_map, List.map_flatMap]
    rfl
  rw [htable, hrows, Outline.table]
  simp only [List.map_map, List.filter_map, List.flatMap_map]
  rfl

theorem errors_spell (ho : o.WellFormed) (h : s.Spells o) : s.errors = [] := by
  have hstarts : s.duplicateStarts = [] := by
    have hlength : s.starts.length ≤ 1 := by
      rw [← List.length_map (fun name : Lexeme => name.text), (declarations_spell h).2]
      exact ho.start_unique
    rw [Sheet.duplicateStarts]
    split
    · next hmore =>
      rw [hmore] at hlength
      simp at hlength
    · rfl
  have hempty : s.emptyAlternatives = [] := by
    rw [Sheet.emptyAlternatives, List.filterMap_eq_nil_iff]
    intro a ha
    obtain ⟨d, hd, ha⟩ := List.mem_flatMap.1 ha
    obtain ⟨c, hc, hspells⟩ := exists_of_mem_left (R := fun d c => d.Spells c ∧ c ∈ o.clauses)
      (forall₂_imp_of_mem h.definitions fun d _ c hc hdc => ⟨hdc, hc⟩) hd
    simp [words_ne_nil ho hc hspells.1 a ha]
  rw [Sheet.errors, hstarts, hempty, h.stoppedBy]
  rfl

/-- A space behind each piece makes a rendering. -/
theorem exists_isRendering (o : Outline) : ∃ text, o.IsRendering text := by
  have hrendered : ∀ ps, ∃ cs, Rendered ps cs := by
    intro ps
    induction ps with
    | nil => exact ⟨[], .nil⟩
    | cons p ps ih =>
      obtain ⟨cs, hcs⟩ := ih
      exact ⟨_, .cons (.cons .space .nil) (fun _ _ => by simp) hcs⟩
  obtain ⟨cs, hcs⟩ := hrendered o.pieces
  exact ⟨String.ofList cs, [], cs, String.toList_ofList, .nil, hcs⟩

/-- An outline has renderings, and each of them is read as what the outline stands for: its rules in
order of first definition, each with all its productions in order, its tokens in order of first
occurrence, and its start rule. -/
theorem rendering_is_read {o : Outline} (ho : o.WellFormed) :
    (∃ text, o.IsRendering text) ∧ ∀ text, o.IsRendering text →
      (Sheet.read text).errors = [] ∧
        tableOf (ofSheet (Sheet.read text)) = o.table ∧
        (ofSheet (Sheet.read text)).tokens.map (·.text) = distinct o.tokenTexts ∧
        (ofSheet (Sheet.read text)).start.map (·.text) = o.start := by
  refine ⟨exists_isRendering o, fun text h => ?_⟩
  have hspells := spells_of_isRendering ho.writable h
  exact ⟨errors_spell ho hspells, table_spells ho hspells, tokens_spell ho hspells,
    start_spells hspells⟩

/-- Sums of numbers; the rule comes in two clauses, and the last one adds a token in quotes. -/
def sums : Outline where
  headers := [.tokens [.bare "num"]]
  clauses := [⟨"E", [.rule "E", .token (.quoted '\'' "+"), .token (.bare "num")], []⟩,
    ⟨"E", [.token (.bare "num")], [[.token (.quoted '"' "x")]]⟩]
  closed := true

theorem wellFormed_sums : sums.WellFormed where
  writable := by decide
  start_unique := by decide
  nonempty := by decide
  bare_declared := by
    intro name hname
    simp [sums, Outline.items, Clause.items, Clause.bodies] at hname
    subst hname
    decide
  rule_apart := by
    intro name hname
    simp [sums, Outline.items, Clause.items, Clause.bodies] at hname
    subst hname
    decide

def sumsText : String := "// sums\n%token/* all */num %%\nE:E'+'num;E :/**/num |\t\"x\"\n; %%"

theorem isRendering_sums : sums.IsRendering sumsText := by
  have nothing : ∀ {breaks : Bool}, Gap breaks [] := .nil
  have space : Gap true [' '] := .cons .space .nil
  have remark : Gap true "// sums\n".toList :=
    .cons (@Blank.line _ " sums".toList '\n' (by decide) rfl) .nil
  have comment : Gap false "/* all */".toList :=
    .cons (@Blank.block _ " all ".toList (by decide) (.inr (by decide))) .nil
  have empty : Gap true "/**/".toList := .cons (@Blank.block _ [] (by decide) (.inl rfl)) .nil
  have tab : Gap true ['\t'] := .cons .tab .nil
  have feed : Gap true ['\n'] := .cons (.lineBreak rfl rfl) .nil
  have hrendered : Rendered sums.pieces _ :=
    .cons comment (by decide) <| .cons space (by decide) <| .cons feed (by decide) <|
    .cons nothing (by decide) <| .cons nothing (by decide) <| .cons nothing (by decide) <|
    .cons nothing (by decide) <| .cons nothing (by decide) <| .cons nothing (by decide) <|
    .cons space (by decide) <| .cons empty (by decide) <| .cons space (by decide) <|
    .cons tab (by decide) <| .cons feed (by decide) <| .cons space (by decide) <|
    .cons nothing (by decide) .nil
  exact ⟨_, _, by decide, remark, hrendered⟩

theorem rendering_is_read_sums : sums.WellFormed ∧ sums.IsRendering sumsText ∧
    (Sheet.read sumsText).errors = [] ∧
    tableOf (ofSheet (Sheet.read sumsText)) =
      [⟨"E", [[.rule "E", .token "+", .token "num"], [.token "num"], [.token "x"]]⟩] ∧
    (ofSheet (Sheet.read sumsText)).tokens.map (·.text) = ["num", "+", "x"] ∧
    (ofSheet (Sheet.read sumsText)).start.map (·.text) = some "E" := by
  obtain ⟨-, hread⟩ := rendering_is_read wellFormed_sums
  obtain ⟨herrors, htable, htokens, hstart⟩ := hread sumsText isRendering_sums
  refine ⟨wellFormed_sums, isRendering_sums, herrors, htable.trans ?_, htokens.trans ?_, hstart⟩
  · rw [Outline.table, distinct_eq_foldl]
    decide
  · rw [distinct_eq_foldl]
    decide

end GrammarRepair
