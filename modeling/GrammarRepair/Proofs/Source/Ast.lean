import GrammarRepair.Proofs.Source.Classification
import GrammarRepair.Proofs.Source.Parser
import Mathlib.Data.List.GetD
import Mathlib.Data.List.Induction

/-!
What the parser has built up in the end. Its rules hold the numbers of their productions; read through
these numbers, adding a rule and adding its productions merges one more definition into the rules that
are there. Main statement: the parser builds up what is written on the sheet, and finds the same errors
of reference in it.
-/

namespace GrammarRepair

/-- The error of a reference to a rule that is not among the defined ones. -/
def Symbol.unknown? (defined : List String) : Symbol → Option SourceError
  | .token _ => none
  | .rule name =>
    if name.text ∈ defined then none else some ⟨.unknownRule name.text, name.span⟩

namespace Written

variable {rules : List WrittenRule}

def insertRule (rules : List WrittenRule) (name : Lexeme) : List WrittenRule :=
  if rules.any (·.name.text == name.text) then rules else rules ++ [⟨name, []⟩]

def addBodies (text : String) (bodies : List (List Symbol)) (rules : List WrittenRule) :
    List WrittenRule :=
  rules.map fun r => if r.name.text == text then ⟨r.name, r.bodies ++ bodies⟩ else r

def mergeRule (rules : List WrittenRule) (r : WrittenRule) : List WrittenRule :=
  addBodies r.name.text r.bodies (insertRule rules r.name)

theorem addBodies_nil (text : String) (rules : List WrittenRule) :
    addBodies text [] rules = rules := by
  refine (List.map_congr_left fun r _ => ?_).trans (List.map_id rules)
  show (if _ then (⟨r.name, r.bodies ++ []⟩ : WrittenRule) else r) = r
  rw [List.append_nil, ite_self]

theorem addBodies_append (text : String) (bodies bodies' : List (List Symbol))
    (rules : List WrittenRule) : addBodies text (bodies ++ bodies') rules =
      addBodies text bodies' (addBodies text bodies rules) := by
  rw [addBodies, addBodies, addBodies, List.map_map]
  refine List.map_congr_left fun r _ => ?_
  by_cases htext : (r.name.text == text) = true
  · simp only [Function.comp_apply, if_pos htext, List.append_assoc]
  · simp only [Function.comp_apply, if_neg htext]

def merged? (rules : List WrittenRule) (text : String) : Option WrittenRule :=
  (rules.find? (·.name.text == text)).map fun first =>
    ⟨first.name, (rules.filter (·.name.text == text)).flatMap (·.bodies)⟩

theorem merge_eq_filterMap (rules : List WrittenRule) :
    merge rules = (distinct (rules.map (·.name.text))).filterMap (merged? rules) := rfl

theorem merged?_concat {text : String} (htext : text ∈ rules.map (·.name.text)) (r : WrittenRule) :
    merged? (rules ++ [r]) text = (merged? rules text).map fun x =>
      if x.name.text == r.name.text then ⟨x.name, x.bodies ++ r.bodies⟩ else x := by
  obtain ⟨first, hfirst, hname⟩ := exists_first ((mem_distinct _ _).2 htext)
  rw [merged?, merged?, List.find?_append, hfirst, List.filter_append, List.flatMap_append]
  by_cases hsame : text = r.name.text
  · simp [hname, ← hsame]
  · simp [hname, hsame, Ne.symm hsame]

theorem merged?_new {r : WrittenRule} (hnew : r.name.text ∉ rules.map (·.name.text)) :
    merged? (rules ++ [r]) r.name.text = some r := by
  have hother : ∀ x ∈ rules, ¬ (x.name.text == r.name.text) = true := by
    intro x hx heq
    apply hnew
    rw [← eq_of_beq heq]
    exact List.mem_map_of_mem (f := (·.name.text)) hx
  have hnone : rules.find? (·.name.text == r.name.text) = none := List.find?_eq_none.2 hother
  have hnil : rules.filter (·.name.text == r.name.text) = [] := List.filter_eq_nil_iff.2 hother
  rw [merged?, List.find?_append, hnone, List.filter_append, hnil]
  simp

theorem distinct_concat {α : Type} [BEq α] [Hashable α] [LawfulBEq α] (xs : List α) (x : α) :
    distinct (xs ++ [x]) = if xs.contains x then distinct xs else distinct xs ++ [x] := by
  rw [distinct_eq_foldl, List.foldl_append, ← distinct_eq_foldl]
  have hcontains : (distinct xs).contains x = xs.contains x := by
    rw [Bool.eq_iff_iff, List.contains_iff_mem, List.contains_iff_mem, mem_distinct]
  show (if (distinct xs).contains x then _ else _) = _
  rw [hcontains]

theorem merge_concat (rules : List WrittenRule) (r : WrittenRule) :
    merge (rules ++ [r]) = mergeRule (merge rules) r := by
  have hbefore : (distinct (rules.map (·.name.text))).filterMap (merged? (rules ++ [r])) =
      addBodies r.name.text r.bodies (merge rules) := by
    rw [merge_eq_filterMap, addBodies, List.map_filterMap]
    exact List.filterMap_congr fun text htext => merged?_concat ((mem_distinct _ _).1 htext) r
  have hany : (merge rules).any (·.name.text == r.name.text) =
      (rules.map (·.name.text)).contains r.name.text := by
    rw [Bool.eq_iff_iff, List.contains_iff_mem, ← mem_distinct, ← names_merge]
    simp
  rw [merge_eq_filterMap, List.map_append, List.map_singleton, distinct_concat, mergeRule, insertRule,
    hany]
  by_cases hknown : (rules.map (·.name.text)).contains r.name.text = true
  · rw [if_pos hknown, if_pos hknown, hbefore]
  · have hnew : r.name.text ∉ rules.map (·.name.text) := mt List.contains_iff_mem.2 hknown
    rw [if_neg hknown, if_neg hknown, List.filterMap_append, hbefore, addBodies, addBodies,
      List.map_append, List.filterMap_cons_some (merged?_new hnew)]
    simp

theorem merge_eq_foldl (rules : List WrittenRule) : merge rules = rules.foldl mergeRule [] := by
  induction rules using List.reverseRecOn with
  | nil => rfl
  | append_singleton rules r ih => rw [merge_concat, ih, List.foldl_append, List.foldl_cons,
      List.foldl_nil]

theorem unknownRules_eq {g : Written} {defined : List String}
    (h : ∀ text, g.hasRule text = true ↔ text ∈ defined) :
    g.unknownRules = (g.rules.flatMap (·.bodies.flatten)).filterMap (Symbol.unknown? defined) := by
  rw [unknownRules]
  apply List.filterMap_congr
  intro x _
  cases x with
  | token name => rfl
  | rule name => exact if_congr (h name.text) rfl rfl

end Written

namespace Ast

open Written

variable {t : Ast} {start : Option Lexeme} {rules : List WrittenRule} {tokens : List Lexeme}

def production (t : Ast) (number : Nat) : List Symbol := t.productions.getD number []

def writtenRules (t : Ast) : List WrittenRule :=
  t.rules.map fun r => ⟨r.1, r.2.map t.production⟩

def written (t : Ast) : Written := ⟨t.start, t.tokens, t.writtenRules⟩

/-- All numbers of productions are in range, and through them these rules are there. -/
structure Holds (t : Ast) (start : Option Lexeme) (rules : List WrittenRule) (tokens : List Lexeme) :
    Prop where
  lt : ∀ r ∈ t.rules, ∀ i ∈ r.2, i < t.productions.length
  start_eq : t.start = start
  rules_eq : t.writtenRules = rules
  tokens_eq : t.tokens = tokens

theorem hasRule_written (t : Ast) (text : String) : t.written.hasRule text = t.hasRule text :=
  List.any_map

theorem Holds.beginRule {p : Parser} (h : p.ast.Holds start rules tokens) (name : Lexeme) :
    (p.beginRule name).ast.Holds (start <|> some name) (insertRule rules name) tokens := by
  obtain ⟨hlt, rfl, rfl, rfl⟩ := h
  have hany : p.ast.writtenRules.any (·.name.text == name.text) = p.ast.hasRule name.text :=
    List.any_map
  rw [Parser.beginRule, addRule, insertRule, hany]
  by_cases hknown : p.ast.hasRule name.text = true
  · rw [if_pos hknown, if_pos hknown]
    exact ⟨hlt, rfl, rfl, rfl⟩
  · rw [if_neg hknown, if_neg hknown]
    refine ⟨?_, rfl, List.map_append, rfl⟩
    intro r hr i hi
    rcases List.mem_append.1 hr with hr | hr
    · exact hlt r hr i hi
    · obtain rfl := List.mem_singleton.1 hr
      cases hi

theorem Holds.addProduction (h : t.Holds start rules tokens) (rule : String) (body : List Symbol) :
    (t.addProduction rule body).Holds start (addBodies rule [body] rules) tokens := by
  obtain ⟨hlt, rfl, rfl, rfl⟩ := h
  have hold : ∀ r ∈ t.rules, r.2.map (t.addProduction rule body).production = r.2.map t.production := by
    intro r hr
    refine List.map_congr_left fun i hi => ?_
    show (t.productions ++ [body]).getD i [] = t.productions.getD i []
    exact List.getD_append _ _ _ _ (hlt r hr i hi)
  have hnew : (t.addProduction rule body).production t.productions.length = body := by
    show (t.productions ++ [body]).getD t.productions.length [] = body
    rw [List.getD_append_right _ _ _ _ (Nat.le_refl _), Nat.sub_self]
    rfl
  refine ⟨?_, rfl, ?_, rfl⟩
  · intro r hr i hi
    obtain ⟨r', hr', rfl⟩ := List.mem_map.1 hr
    have hlength : (t.addProduction rule body).productions.length = t.productions.length + 1 :=
      List.length_append
    rw [hlength]
    split at hi
    · rcases List.mem_append.1 hi with hi | hi
      · exact Nat.lt_succ_of_lt (hlt r' hr' i hi)
      · rw [List.mem_singleton.1 hi]
        exact Nat.lt_succ_self _
    · exact Nat.lt_succ_of_lt (hlt r' hr' i hi)
  · have hrules : (t.addProduction rule body).rules = t.rules.map fun r =>
        if r.1.text == rule then (r.1, r.2 ++ [t.productions.length]) else r := rfl
    rw [writtenRules, writtenRules, hrules, addBodies, List.map_map, List.map_map]
    refine List.map_congr_left fun r hr => ?_
    by_cases hname : (r.1.text == rule) = true
    · simp only [Function.comp_apply, if_pos hname, List.map_append, hold r hr, List.map_cons, hnew,
        List.map_nil]
    · simp only [Function.comp_apply, if_neg hname, hold r hr]

/-- One alternative, with its symbols as they are known at its place. -/
theorem Holds.endAlternative {p : Parser} (h : p.ast.Holds start rules tokens) (rule : String)
    (a : Alternative) : (Parser.endAlternative rule p a).ast.Holds start
      (addBodies rule (if a.words.isEmpty then [] else [(bodyOf a tokens).1]) rules)
      (bodyOf a tokens).2 := by
  obtain ⟨hlt, rfl, rfl, rfl⟩ := h
  have hwords : (p.addWords a.words).2.ast.Holds p.ast.start p.ast.writtenRules
      (bodyOf a p.ast.tokens).2 := ⟨hlt, rfl, rfl, rfl⟩
  have hlength : (bodyOf a p.ast.tokens).1.length = a.words.length := length_mapState _ _ _
  have hempty : (p.addWords a.words).1.isEmpty = a.words.isEmpty := by
    show (bodyOf a p.ast.tokens).1.isEmpty = _
    rw [Bool.eq_iff_iff, List.isEmpty_iff_length_eq_zero, List.isEmpty_iff_length_eq_zero, hlength]
  rw [Parser.endAlternative, Parser.endProduction, hempty]
  by_cases hnone : a.words.isEmpty = true
  · rw [if_pos hnone, if_pos hnone, addBodies_nil]
    exact hwords
  · rw [if_neg hnone, if_neg hnone]
    exact hwords.addProduction rule _

theorem Holds.foldl_endAlternative {p : Parser} (h : p.ast.Holds start rules tokens) (rule : String)
    (alternatives : List Alternative) :
    (alternatives.foldl (Parser.endAlternative rule) p).ast.Holds start
      (addBodies rule (mapState bodyOf (alternatives.filter (!·.words.isEmpty)) tokens).1 rules)
      (mapState bodyOf (alternatives.filter (!·.words.isEmpty)) tokens).2 := by
  induction alternatives generalizing p rules tokens with
  | nil =>
    rw [List.filter_nil, mapState_nil, addBodies_nil]
    exact h
  | cons a alternatives ih =>
    have hrest := ih (h.endAlternative rule a)
    rw [← addBodies_append] at hrest
    rw [List.foldl_cons, List.filter_cons]
    by_cases hnone : a.words.isEmpty = true
    · have htokens : (bodyOf a tokens).2 = tokens := by
        rw [bodyOf, List.isEmpty_iff.1 hnone]
        rfl
      rw [if_pos hnone, htokens, List.nil_append] at hrest
      rw [if_neg (by rw [hnone]; exact Bool.false_ne_true)]
      exact hrest
    · rw [if_neg hnone] at hrest
      rw [if_pos (by rw [Bool.not_eq_true', Bool.eq_false_iff]; exact hnone)]
      exact hrest

theorem Holds.define {p : Parser} (h : p.ast.Holds start rules tokens) (d : Definition) :
    (p.define d).ast.Holds (start <|> some d.name) (mergeRule rules (ruleOf d tokens).1)
      (ruleOf d tokens).2 :=
  (h.beginRule d.name).foldl_endAlternative d.name.text d.alternatives

theorem Holds.foldl_define {p : Parser} (h : p.ast.Holds start rules tokens)
    (definitions : List Definition) : (definitions.foldl Parser.define p).ast.Holds
      (start <|> definitions.head?.map (·.name))
      ((mapState ruleOf definitions tokens).1.foldl mergeRule rules)
      (mapState ruleOf definitions tokens).2 := by
  induction definitions generalizing p start rules tokens with
  | nil =>
    have hstart : (start <|> ([] : List Definition).head?.map (·.name)) = start := by
      cases start with
      | none => rfl
      | some name => rfl
    rw [hstart]
    exact h
  | cons d definitions ih =>
    have hrest := ih (h.define d)
    have hstart : ((start <|> some d.name) <|> definitions.head?.map (·.name)) =
        (start <|> (d :: definitions).head?.map (·.name)) := by
      cases start with
      | none => rfl
      | some name => rfl
    rw [hstart] at hrest
    exact hrest

theorem written_ofSheet (s : Sheet) : (Parser.ofSheet s).ast.written = Written.ofSheet s := by
  have hdeclared := Parser.hasDeclared_declared s
  have hholds : (Parser.declared s).ast.Holds s.starts.head? [] (s.declared.foldl addToken []) := by
    refine ⟨?_, hdeclared.start, ?_, hdeclared.tokens⟩
    · intro r hr
      rw [hdeclared.rules] at hr
      cases hr
    · rw [writtenRules, hdeclared.rules]
      rfl
  obtain ⟨-, hstart, hrules, htokens⟩ := hholds.foldl_define s.definitions
  rw [← merge_eq_foldl] at hrules
  exact congr (congrArg₂ Written.mk hstart htokens) hrules

def defined (t : Ast) : List String := t.rules.map (·.1.text)

theorem hasRule_iff_mem_defined {t : Ast} {text : String} :
    t.hasRule text = true ↔ text ∈ t.defined := by
  simp [hasRule, defined]

theorem foldl_checkSymbol (t : Ast) (body : List Symbol) (errors : List SourceError) :
    body.foldl t.checkSymbol errors = errors ++ body.filterMap (Symbol.unknown? t.defined) := by
  induction body generalizing errors with
  | nil => exact (List.append_nil errors).symm
  | cons x body ih =>
    rw [List.foldl_cons, ih, List.filterMap_cons]
    cases x with
    | token name => rfl
    | rule name =>
      rw [checkSymbol, Symbol.unknown?]
      by_cases hknown : t.hasRule name.text = true
      · rw [if_pos hknown, if_pos (hasRule_iff_mem_defined.1 hknown)]
      · rw [if_neg hknown, if_neg (mt hasRule_iff_mem_defined.2 hknown), List.append_assoc]
        rfl

theorem foldl_checkProduction (t : Ast) (numbers : List Nat) (errors : List SourceError) :
    numbers.foldl t.checkProduction errors =
      errors ++ (numbers.map t.production).flatten.filterMap (Symbol.unknown? t.defined) := by
  induction numbers generalizing errors with
  | nil => exact (List.append_nil errors).symm
  | cons i numbers ih =>
    rw [List.foldl_cons, ih, checkProduction, foldl_checkSymbol, List.append_assoc,
      ← List.filterMap_append]
    rfl

theorem foldl_checkRules (t : Ast) (rules : List (Lexeme × List Nat)) (errors : List SourceError) :
    rules.foldl (fun errors rule => rule.2.foldl t.checkProduction errors) errors =
      errors ++ (rules.flatMap fun r => (r.2.map t.production).flatten).filterMap
        (Symbol.unknown? t.defined) := by
  induction rules generalizing errors with
  | nil => exact (List.append_nil errors).symm
  | cons r rules ih =>
    rw [List.foldl_cons, ih, foldl_checkProduction, List.append_assoc, ← List.filterMap_append,
      List.flatMap_cons]

theorem unknownRules_written (t : Ast) : t.written.unknownRules =
    (t.rules.flatMap fun r => (r.2.map t.production).flatten).filterMap
      (Symbol.unknown? t.defined) := by
  have hrules : t.written.rules.flatMap (·.bodies.flatten) =
      t.rules.flatMap fun r => (r.2.map t.production).flatten :=
    List.flatMap_map _ _ _
  have hdefined : ∀ text, t.written.hasRule text = true ↔ text ∈ t.defined := by
    intro text
    rw [hasRule_written, hasRule_iff_mem_defined]
  rw [unknownRules_eq hdefined, hrules]

theorem startErrors_written (t : Ast) : t.written.startErrors = t.checkStart := by
  have hsame : t.written.start = t.start := rfl
  rw [startErrors, checkStart, hsame]
  cases t.start with
  | none => rfl
  | some name => exact congrArg (fun b : Bool => if b then _ else _) (t.hasRule_written name.text)

theorem validate_eq (t : Ast) : t.validate = t.written.errors := by
  rw [validate, foldl_checkRules, Written.errors, startErrors_written, unknownRules_written]

end Ast

/-- The parser reads what is read by way of the sheet, and refuses the rest with the same errors. -/
theorem Parser.read_eq (text : String) :
    (Parser.read text).map Ast.written = Written.read text := by
  rw [Parser.read, Written.read, parse_eq]
  by_cases hform : (Sheet.read text).errors.isEmpty = true
  · simp only [hform, if_true]
    rw [Ast.validate_eq, Ast.written_ofSheet]
    by_cases hreferences : (Written.ofSheet (Sheet.read text)).errors.isEmpty = true
    · rw [if_pos hreferences, if_pos hreferences]
      exact congrArg Except.ok (Ast.written_ofSheet _)
    · rw [if_neg hreferences, if_neg hreferences]
      rfl
  · simp only [hform]
    rfl

end GrammarRepair
