import GrammarRepair.Grammar.Printer
import GrammarRepair.Proofs.Grammar.Kept
import GrammarRepair.Proofs.Grammar.Tables
import GrammarRepair.Proofs.Grammar.Tokens
import GrammarRepair.Proofs.Source.Cursor
import GrammarRepair.Proofs.Source.Outline
import GrammarRepair.Source.Bytes

/-!
The text of a grammar as a source. By their names, the rules of a grammar make up an outline with a
start rule, one clause for each rule and all tokens in single quotes. Main statement: the text of a
grammar renders that outline, and if its names can be written, the outline is well formed and stands for
the rules of the grammar in the order in which they are printed.
-/

namespace GrammarRepair

open NormalForm Outline

namespace Grammar

variable {g : Grammar} {a : Nat} {p : Production}

def bodyName (g : Grammar) : Body → NamedBody
  | .pair b c => .pair (g.ruleName b) (g.ruleName c)
  | .token t => .token (g.tokenText t)

def namedRule (g : Grammar) (a : Nat) : String × List NamedBody :=
  (g.ruleName a, (g.bodiesOf a).map g.bodyName)

def namedRules (g : Grammar) : List (String × List NamedBody) := g.printOrder.map g.namedRule

theorem bodiesOf_eq (g : Grammar) (a : Nat) :
    g.bodiesOf a = (g.productions.toList.filter (·.head == a)).map (·.body) := by
  have hbody : ∀ p ∈ g.productions.toList.zipIdx.filter (·.1.head == a),
      g.productions[p.2]?.map (·.body) = some p.1.body := by
    intro p hp
    have hget := List.mem_zipIdx_iff_getElem?.1 (List.mem_filter.1 hp).1
    rw [← Array.getElem?_toList, hget, Option.map_some]
  have hfilter : (g.productions.toList.zipIdx.filter (·.1.head == a)).map Prod.fst =
      g.productions.toList.filter (·.head == a) := by
    conv_rhs => rw [← map_fst_zipIdx g.productions.toList, List.filter_map]
    rfl
  rw [bodiesOf, productionsOf_eq, List.filterMap_map, ← hfilter, List.map_map]
  exact (List.filterMap_congr hbody).trans (congrFun List.filterMap_eq_map _)

theorem mem_bodiesOf {body : Body} :
    body ∈ g.bodiesOf a ↔ ⟨a, body⟩ ∈ g.productions.toList := by
  rw [bodiesOf_eq, List.mem_map]
  constructor
  · rintro ⟨p, hp, rfl⟩
    obtain ⟨hmem, hhead⟩ := List.mem_filter.1 hp
    rwa [← eq_of_beq hhead]
  · intro hmem
    exact ⟨_, List.mem_filter.2 ⟨hmem, beq_self_eq_true a⟩, rfl⟩

theorem perm_printOrder (g : Grammar) : g.printOrder.Perm (List.range g.ruleCount) := by
  have hnodup : (List.range g.ruleCount).Nodup := List.nodup_range
  have hstart : g.start ∈ List.range g.ruleCount := List.mem_range.2 g.start_lt
  rw [printOrder, ← hnodup.erase_eq_filter]
  exact (List.perm_cons_erase hstart).symm

theorem mem_printOrder : a ∈ g.printOrder ↔ a < g.ruleCount :=
  g.perm_printOrder.mem_iff.trans List.mem_range

end Grammar

namespace NormalForm

/-- A body as it is written: tokens are put in single quotes. -/
def NamedBody.items : NamedBody → List Item
  | .pair left right => [.rule left, .rule right]
  | .token text => [.token (.quoted '\'' text)]

theorem NamedBody.map_sym_items (b : NamedBody) : b.items.map Item.sym = b.symbols := by
  cases b with
  | pair left right => rfl
  | token text => rfl

def clauseOf? (rule : String × List NamedBody) : Option Clause :=
  match rule.2 with
  | [] => none
  | body :: bodies => some ⟨rule.1, body.items, bodies.map (·.items)⟩

theorem clauseOf?_eq_some_iff {rule : String × List NamedBody} {c : Clause} :
    clauseOf? rule = some c ↔
      rule.2 ≠ [] ∧ c.name = rule.1 ∧ c.bodies = rule.2.map (·.items) := by
  obtain ⟨name, bodies⟩ := rule
  obtain ⟨name', first, more⟩ := c
  cases bodies with
  | nil => simp [clauseOf?]
  | cons body bodies =>
    simp [clauseOf?, Clause.bodies]
    tauto

def outlineOf (start : String) (rules : List (String × List NamedBody)) : Outline where
  headers := [.start start]
  clauses := rules.filterMap clauseOf?
  closed := false

end NormalForm

def Grammar.outline (g : Grammar) : Outline := outlineOf (g.ruleName g.start) g.namedRules

namespace NormalForm

def NamedBody.chars : NamedBody → List Char
  | .pair left right => left.toList ++ ' ' :: right.toList
  | .token text => '\'' :: (text.toList ++ ['\''])

def moreChars : List NamedBody → List Char
  | [] => [';', '\n']
  | body :: bodies => '\n' :: ' ' :: ' ' :: '|' :: ' ' :: (body.chars ++ moreChars bodies)

def ruleChars (rule : String × List NamedBody) : List Char :=
  match rule.2 with
  | [] => []
  | body :: bodies => rule.1.toList ++ ':' :: ' ' :: (body.chars ++ moreChars bodies)

theorem gap_space : Gap true [' '] := .cons .space .nil

theorem gap_feed : Gap true ['\n'] := .cons (.lineBreak rfl rfl) .nil

variable {ps : List Piece} {cs : List Char}

theorem rendered_body (b : NamedBody) {p : Piece} (hp : p.isBare = false) {gap : List Char}
    (hgap : Gap true gap) (hrest : Rendered (p :: ps) cs) :
    Rendered (bodyPieces b.items ++ p :: ps) (b.chars ++ (gap ++ cs)) := by
  have hapart : (p :: ps).head?.any Piece.isBare = true → gap ≠ [] := by
    intro hbare
    rw [List.head?_cons, Option.any_some, hp] at hbare
    cases hbare
  cases b with
  | pair left right =>
    have hright : Rendered (.word (.bare right) :: p :: ps) _ :=
      .cons hgap (fun _ => hapart) hrest
    have hleft : Rendered (.word (.bare left) :: .word (.bare right) :: p :: ps) _ :=
      .cons gap_space (fun _ _ => List.cons_ne_nil _ _) hright
    show Rendered _ ((left.toList ++ ' ' :: right.toList) ++ (gap ++ cs))
    rw [List.append_assoc]
    exact hleft
  | token text =>
    have hword : Rendered (.word (.quoted '\'' text) :: p :: ps) _ :=
      .cons hgap (fun _ => hapart) hrest
    exact hword

theorem rendered_bodies (bodies : List NamedBody) (body : NamedBody) (hrest : Rendered ps cs) :
    Rendered (bodyPieces body.items ++ (morePieces (bodies.map (·.items)) ++ ps))
      (body.chars ++ (moreChars bodies ++ cs)) := by
  induction bodies generalizing body with
  | nil =>
    have hend : Rendered (.semicolon :: ps) ([';'] ++ (['\n'] ++ cs)) :=
      .cons gap_feed (fun h => by cases h) hrest
    have hbody := rendered_body body rfl .nil hend
    exact hbody
  | cons next bodies ih =>
    have hgap : Gap true ['\n', ' ', ' '] :=
      .cons (.lineBreak rfl rfl) (.cons .space (.cons .space .nil))
    have hbar : Rendered (.bar :: (bodyPieces next.items ++ (morePieces (bodies.map (·.items)) ++ ps)))
        (['|'] ++ ([' '] ++ (next.chars ++ (moreChars bodies ++ cs)))) :=
      .cons gap_space (fun h => by cases h) (ih next)
    have hbody := rendered_body body rfl hgap hbar
    show Rendered (bodyPieces body.items ++
      (.bar :: (bodyPieces next.items ++ morePieces (bodies.map (·.items))) ++ ps))
      (body.chars ++ ('\n' :: ' ' :: ' ' :: '|' :: ' ' :: (next.chars ++ moreChars bodies) ++ cs))
    simp only [List.cons_append, List.append_assoc]
    exact hbody

theorem rendered_clause {rule : String × List NamedBody} {c : Clause} (h : clauseOf? rule = some c)
    (hrest : Rendered ps cs) : Rendered (c.pieces ++ ps) (ruleChars rule ++ cs) := by
  obtain ⟨name, bodies⟩ := rule
  cases bodies with
  | nil => cases h
  | cons body bodies =>
    cases h
    have hcolon : Rendered (.colon :: (bodyPieces body.items ++ (morePieces (bodies.map (·.items)) ++ ps)))
        ([':'] ++ ([' '] ++ (body.chars ++ (moreChars bodies ++ cs)))) :=
      .cons gap_space (fun h => by cases h) (rendered_bodies bodies body hrest)
    have hname : Rendered (.word (.bare name) :: .colon :: _) (name.toList ++ ([] ++ _)) :=
      .cons .nil (fun _ h => by cases h) hcolon
    show Rendered (.word (.bare name) :: .colon :: (bodyPieces body.items ++
      morePieces (bodies.map (·.items))) ++ ps)
      (name.toList ++ ':' :: ' ' :: (body.chars ++ moreChars bodies) ++ cs)
    simp only [List.cons_append, List.append_assoc]
    exact hname

theorem rendered_clauses (rules : List (String × List NamedBody)) :
    Rendered ((rules.filterMap clauseOf?).flatMap (·.pieces)) (rules.flatMap ruleChars) := by
  induction rules with
  | nil => exact .nil
  | cons rule rules ih =>
    rw [List.flatMap_cons]
    cases h : clauseOf? rule with
    | none =>
      have hempty : ruleChars rule = [] := by
        obtain ⟨name, bodies⟩ := rule
        cases bodies with
        | nil => rfl
        | cons body bodies => cases h
      rw [List.filterMap_cons_none h, hempty]
      exact ih
    | some c =>
      rw [List.filterMap_cons_some h, List.flatMap_cons]
      exact rendered_clause h ih

end NormalForm

namespace Grammar

variable {g : Grammar} {a : Nat} {p : Production}

theorem toList_bodyText (g : Grammar) (body : Body) :
    (g.bodyText body).toList = (g.bodyName body).chars := by
  cases body with
  | pair b c =>
    rw [bodyText, String.toList_append, String.toList_append, List.append_assoc]
    rfl
  | token t =>
    rw [bodyText, quoteToken, String.toList_append, String.toList_append, List.append_assoc]
    rfl

/-- Behind the name of its rule and the colon, a production's text is a blank and its body: what is
printed as one alternative of the rule. -/
theorem sliceFrom_productionText (g : Grammar) (p : Production) :
    Bytes.sliceFrom (g.productionText p) ((g.ruleName p.head).utf8ByteSize + 1) =
      .ok (' ' :: (g.bodyText p.body).toList) := by
  have htext : (g.productionText p).toList =
      ((g.ruleName p.head).toList ++ [':']) ++ ' ' :: (g.bodyText p.body).toList := by
    rw [productionText, String.toList_append, String.toList_append, List.append_assoc,
      List.append_assoc]
    rfl
  have hlength : byteLength ((g.ruleName p.head).toList ++ [':']) =
      (g.ruleName p.head).utf8ByteSize + 1 := by
    rw [byteLength_append, byteLength_toList]
    rfl
  rw [Bytes.sliceFrom, htext, ← hlength, charsBefore?_append]
  exact congrArg Except.ok (List.drop_left)

theorem toList_alternatives (g : Grammar) (bodies : List Body) (body : Body) :
    ("\n  |".intercalate (((body :: bodies).map g.bodyText).map (" " ++ ·)) ++ ";\n").toList =
      ' ' :: ((g.bodyName body).chars ++ moreChars (bodies.map g.bodyName)) := by
  induction bodies generalizing body with
  | nil =>
    rw [List.map_singleton, List.map_singleton, String.intercalate_singleton, String.toList_append,
      String.toList_append, toList_bodyText]
    rfl
  | cons next bodies ih =>
    have hnext := ih next
    rw [String.toList_append] at hnext
    rw [List.map_cons, List.map_cons, List.map_cons, List.map_cons, String.intercalate_cons_cons,
      String.toList_append, String.toList_append, String.toList_append, String.toList_append,
      List.append_assoc, List.append_assoc, ← List.map_cons, ← List.map_cons, hnext, toList_bodyText]
    simp [moreChars]

theorem toList_ruleLines (g : Grammar) (a : Nat) :
    (g.ruleLines a).toList = ruleChars (g.namedRule a) := by
  rw [ruleLines, namedRule]
  cases g.bodiesOf a with
  | nil => rfl
  | cons body bodies =>
    show (ruleText (g.ruleName a) ((body :: bodies).map g.bodyText)).toList = _
    rw [ruleText, String.append_assoc, String.append_assoc, String.toList_append,
      String.toList_append, toList_alternatives]
    rfl

theorem isRendering_print (g : Grammar) : g.outline.IsRendering g.print := by
  have hlines : (String.join (g.printOrder.map g.ruleLines)).toList =
      g.namedRules.flatMap ruleChars := by
    rw [String.toList_join, List.flatMap_map, namedRules, List.flatMap_map]
    exact List.flatMap_congr fun a _ => g.toList_ruleLines a
  have hrules : Rendered (.rules :: (g.outline.clauses.flatMap (·.pieces) ++ []))
      ("%%".toList ++ (['\n'] ++ g.namedRules.flatMap ruleChars)) := by
    rw [List.append_nil]
    exact .cons gap_feed (fun h => by cases h) (rendered_clauses g.namedRules)
  have hname : Rendered (.word (.bare (g.ruleName g.start)) :: .rules :: _)
      ((g.ruleName g.start).toList ++ (['\n'] ++ _)) :=
    .cons gap_feed (fun _ h => by cases h) hrules
  have hall : Rendered g.outline.pieces ("%start".toList ++ ([' '] ++ _)) :=
    .cons (.cons .space .nil) (fun h => by cases h) hname
  refine ⟨[], _, ?_, .nil, hall⟩
  rw [print, String.toList_append, String.toList_append, String.toList_append, hlines]
  simp

end Grammar

namespace NormalForm

theorem filter_eq_singleton {α β : Type} [BEq β] [LawfulBEq β] {key : α → β} {xs : List α} {x : α}
    (h : (xs.map key).Nodup) (hx : x ∈ xs) : xs.filter (key · == key x) = [x] := by
  induction xs with
  | nil => cases hx
  | cons y ys ih =>
    obtain ⟨hnew, hys⟩ := List.nodup_cons.1 h
    rw [List.filter_cons]
    rcases List.mem_cons.1 hx with rfl | hx
    · have hnone : ys.filter (key · == key x) = [] := by
        refine List.filter_eq_nil_iff.2 fun z hz heq => hnew ?_
        rw [← eq_of_beq heq]
        exact List.mem_map_of_mem hz
      rw [if_pos (beq_self_eq_true _), hnone]
    · have hother : ¬ (key y == key x) = true := by
        intro heq
        apply hnew
        rw [eq_of_beq heq]
        exact List.mem_map_of_mem hx
      rw [if_neg hother, ih hys hx]

section

variable {rules : List (String × List NamedBody)} (hne : ∀ rule ∈ rules, rule.2 ≠ [])

include hne

theorem map_clauses {α : Type} (view : String → List (List Item) → α) :
    (rules.filterMap clauseOf?).map (fun c => view c.name c.bodies) =
      rules.map fun rule => view rule.1 (rule.2.map (·.items)) := by
  rw [List.map_filterMap]
  refine Eq.trans (List.filterMap_congr (g := some ∘ _) fun rule hrule => ?_)
    (congrFun List.filterMap_eq_map _)
  cases h : clauseOf? rule with
  | none =>
    obtain ⟨name, bodies⟩ := rule
    cases bodies with
    | nil => exact absurd rfl (hne _ hrule)
    | cons body bodies => cases h
  | some c =>
    obtain ⟨-, hname, hbodies⟩ := clauseOf?_eq_some_iff.1 h
    rw [Option.map_some, hname, hbodies]
    rfl

theorem table_outlineOf (hnodup : (rules.map Prod.fst).Nodup) (start : String) :
    (outlineOf start rules).table = rules.map rowOf := by
  have hnames : (outlineOf start rules).clauses.map (·.name) = rules.map Prod.fst :=
    map_clauses hne fun name _ => name
  have hrows : (outlineOf start rules).clauses.map (fun c =>
      (⟨c.name, c.bodies.map (·.map Item.sym)⟩ : Row)) = rules.map rowOf := by
    refine (map_clauses hne fun name bodies => (⟨name, bodies.map (·.map Item.sym)⟩ : Row)).trans ?_
    apply List.map_congr_left
    intro rule _
    rw [List.map_map]
    exact congrArg (Row.mk rule.1) (List.map_congr_left fun b _ => b.map_sym_items)
  rw [← hnames] at hnodup
  rw [Outline.table, distinct_of_nodup hnodup, List.map_map, ← hrows]
  apply List.map_congr_left
  intro c hc
  show (⟨c.name, _⟩ : Row) = _
  rw [filter_eq_singleton hnodup hc, List.flatMap_singleton]

end

end NormalForm

namespace Grammar

variable {g : Grammar} {a t : Nat}

/-- A grammar whose names can be written down and read again: rules are bare, tokens fit between
single quotes, and no rule is named like a token. -/
structure Printable (g : Grammar) : Prop where
  useful : ∀ a < g.ruleCount, g.usefulness.isUseful a = true
  bare : ∀ name ∈ g.ruleNames.toList, isBareName name = true
  quotable : ∀ name ∈ g.tokenNames.toList,
    name ≠ "" ∧ '\n' ∉ name.toList ∧ '\'' ∉ name.toList
  apart : ∀ name ∈ g.ruleNames.toList, name ∉ g.tokenNames.toList

theorem ruleName_mem (ha : a < g.ruleCount) : g.ruleName a ∈ g.ruleNames.toList := by
  rw [← map_ruleName_range]
  exact List.mem_map_of_mem (List.mem_range.2 ha)

theorem tokenText_mem (ht : t < g.tokenCount) : g.tokenText t ∈ g.tokenNames.toList := by
  have hname : g.tokenNames[t]? = some g.tokenNames[t] := Array.getElem?_eq_getElem ht
  rw [tokenText, hname]
  exact Array.getElem_mem_toList ht

theorem nodup_namedRules (g : Grammar) : (g.namedRules.map Prod.fst).Nodup := by
  have hnames : g.namedRules.map Prod.fst = g.printOrder.map g.ruleName := List.map_map
  have hperm := g.perm_printOrder.map g.ruleName
  rw [map_ruleName_range] at hperm
  rw [hnames]
  exact hperm.nodup_iff.2 g.nodup_ruleNames

/-- A useful rule has a production. -/
theorem Printable.bodies_ne_nil (h : g.Printable) : ∀ rule ∈ g.namedRules, rule.2 ≠ [] := by
  intro rule hrule
  obtain ⟨a, ha, rfl⟩ := List.mem_map.1 hrule
  obtain ⟨⟨v, hv⟩, -⟩ := isUseful_iff.1 (h.useful a (mem_printOrder.1 ha))
  have hsome : ∃ body, body ∈ g.bodiesOf a := by
    cases hv with
    | token hp => exact ⟨_, mem_bodiesOf.2 hp⟩
    | pair hp _ _ => exact ⟨_, mem_bodiesOf.2 hp⟩
  obtain ⟨body, hbody⟩ := hsome
  exact List.ne_nil_of_mem (List.mem_map_of_mem hbody)

theorem item_of_mem_outline {x : Item} (hx : x ∈ g.outline.items) :
    (∃ name ∈ g.ruleNames.toList, x = .rule name) ∨
      ∃ text ∈ g.tokenNames.toList, x = .token (.quoted '\'' text) := by
  obtain ⟨c, hc, hx⟩ := List.mem_flatMap.1 hx
  obtain ⟨items, hitems, hx⟩ := List.mem_flatten.1 hx
  obtain ⟨rule, hrule, hclause⟩ := List.mem_filterMap.1 hc
  rw [(clauseOf?_eq_some_iff.1 hclause).2.2] at hitems
  obtain ⟨b, hb, rfl⟩ := List.mem_map.1 hitems
  obtain ⟨a, -, rfl⟩ := List.mem_map.1 hrule
  obtain ⟨body, hbody, rfl⟩ := List.mem_map.1 hb
  have hrange := (g.inRange _ (mem_bodiesOf.1 hbody)).2
  cases body with
  | pair b c =>
    rcases List.mem_pair.1 hx with rfl | rfl
    · exact .inl ⟨_, ruleName_mem hrange.1, rfl⟩
    · exact .inl ⟨_, ruleName_mem hrange.2, rfl⟩
  | token t =>
    obtain rfl := List.mem_singleton.1 hx
    exact .inr ⟨_, tokenText_mem hrange, rfl⟩

theorem tokenTexts_outline_subset (g : Grammar) : g.outline.tokenTexts ⊆ g.tokenNames.toList := by
  intro text htext
  have hmem : text ∈ g.outline.items.filterMap Item.tokenText? := htext
  obtain ⟨x, hx, hsome⟩ := List.mem_filterMap.1 hmem
  rcases item_of_mem_outline hx with ⟨name, -, rfl⟩ | ⟨text', htext', rfl⟩
  · cases hsome
  · cases hsome
    exact htext'

theorem writable_morePieces {more : List (List Item)}
    (h : ∀ body ∈ more, ∀ x ∈ body, x.spelling.isWritable = true) :
    ∀ p ∈ morePieces more, p.isWritable = true := by
  induction more with
  | nil =>
    intro p hp
    obtain rfl := List.mem_singleton.1 hp
    rfl
  | cons body more ih =>
    obtain ⟨hbody, hmore⟩ := List.forall_mem_cons.1 h
    intro p hp
    rcases List.mem_cons.1 hp with rfl | hp
    · rfl
    · rcases List.mem_append.1 hp with hp | hp
      · obtain ⟨x, hx, rfl⟩ := List.mem_map.1 hp
        exact hbody x hx
      · exact ih hmore p hp

theorem writable_clause {c : Clause} (hname : isBareName c.name = true)
    (hitems : ∀ x ∈ c.items, x.spelling.isWritable = true) :
    ∀ p ∈ c.pieces, p.isWritable = true := by
  have hbodies : ∀ body ∈ c.bodies, ∀ x ∈ body, x.spelling.isWritable = true :=
    fun body hbody x hx => hitems x (List.mem_flatten.2 ⟨body, hbody, hx⟩)
  -- A clause is written like one more alternative, but for the bar in front of it.
  have hpieces := writable_morePieces hbodies
  intro p hp
  rcases List.mem_cons.1 hp with rfl | hp
  · exact hname
  · rcases List.mem_cons.1 hp with rfl | hp
    · rfl
    · exact hpieces p (List.mem_cons_of_mem _ hp)

theorem Printable.writable_item (h : g.Printable) {x : Item} (hx : x ∈ g.outline.items) :
    x.spelling.isWritable = true := by
  rcases item_of_mem_outline hx with ⟨name, hname, rfl⟩ | ⟨text, htext, rfl⟩
  · exact h.bare name hname
  · obtain ⟨hne, hfeed, hquote⟩ := h.quotable text htext
    have hempty : text.toList.isEmpty = false := by
      rw [List.isEmpty_eq_false_iff]
      exact fun hnil => hne (String.toList_inj.1 hnil)
    have hall : text.toList.all (fun c => c != '\'' && c != '\n') = true := by
      rw [List.all_eq_true]
      intro c hc
      rw [Bool.and_eq_true, bne_iff_ne, bne_iff_ne]
      exact ⟨fun heq => hquote (heq ▸ hc), fun heq => hfeed (heq ▸ hc)⟩
    show (Source.isQuote '\'' && !text.toList.isEmpty && _) = true
    rw [hempty, hall]
    rfl

theorem Printable.writable (h : g.Printable) : ∀ p ∈ g.outline.pieces, p.isWritable = true := by
  have hclauses : ∀ p ∈ g.outline.clauses.flatMap (·.pieces), p.isWritable = true := by
    intro p hp
    obtain ⟨c, hc, hp⟩ := List.mem_flatMap.1 hp
    obtain ⟨rule, hrule, hclause⟩ := List.mem_filterMap.1 hc
    obtain ⟨a, ha, rfl⟩ := List.mem_map.1 hrule
    have hname : c.name = g.ruleName a := (clauseOf?_eq_some_iff.1 hclause).2.1
    refine writable_clause ?_ (fun x hx => h.writable_item (List.mem_flatMap.2 ⟨c, hc, hx⟩)) p hp
    rw [hname]
    exact h.bare _ (ruleName_mem (mem_printOrder.1 ha))
  have hstart : isBareName (g.ruleName g.start) = true := h.bare _ (ruleName_mem g.start_lt)
  have hpieces : g.outline.pieces = .start :: .word (.bare (g.ruleName g.start)) :: .rules ::
      g.outline.clauses.flatMap (·.pieces) :=
    congrArg _ (congrArg _ (congrArg _ (List.append_nil _)))
  rw [hpieces]
  exact List.forall_mem_cons.2 ⟨rfl, List.forall_mem_cons.2 ⟨hstart,
    List.forall_mem_cons.2 ⟨rfl, hclauses⟩⟩⟩

theorem items_ne_nil (b : NamedBody) : b.items ≠ [] := by
  cases b with
  | pair left right => exact List.cons_ne_nil _ _
  | token text => exact List.cons_ne_nil _ _

theorem Printable.wellFormed_outline (h : g.Printable) : g.outline.WellFormed where
  writable := h.writable
  start_unique := Nat.le_refl 1
  nonempty := by
    intro c hc body hbody
    obtain ⟨rule, -, hclause⟩ := List.mem_filterMap.1 hc
    rw [(clauseOf?_eq_some_iff.1 hclause).2.2] at hbody
    obtain ⟨b, -, rfl⟩ := List.mem_map.1 hbody
    exact items_ne_nil b
  bare_declared := by
    intro name hname
    rcases item_of_mem_outline hname with ⟨_, -, heq⟩ | ⟨_, -, heq⟩
    · cases heq
    · cases heq
  rule_apart := by
    intro name hname htoken
    rcases item_of_mem_outline hname with ⟨_, hrule, heq⟩ | ⟨_, -, heq⟩
    · cases heq
      exact h.apart name hrule (tokenTexts_outline_subset g htoken)
    · cases heq

theorem Printable.table_outline (h : g.Printable) : g.outline.table = g.namedRules.map rowOf :=
  table_outlineOf h.bodies_ne_nil g.nodup_namedRules _

end Grammar

end GrammarRepair
