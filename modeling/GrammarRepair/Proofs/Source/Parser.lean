import GrammarRepair.Proofs.Source.Bytes
import GrammarRepair.Source.Parser

/-!
The parser and the sheet. Both read a source alike, and what the parser has in its state is what it makes
of the sheet, one declaration and one definition after the other; only the tokens may be ahead, if an
error stops the reading inside an alternative. Main statement: the parser reads a source as what stands
on its sheet, or refuses it with all errors of the sheet.
-/

namespace GrammarRepair

open Source

namespace Parser

variable {p q : Parser} {c : Cursor} {rule : String} {e : SourceError}
  {outcome : Except SourceError Cursor} {result : Except SourceError Cursor × Parser}

def declare (p : Parser) : Declaration → Parser
  | .tokens names => names.foldl addToken p
  | .start name => p.declareStart name

def addWords (p : Parser) (ws : List Word) : List Symbol × Parser :=
  let (body, tokens) := mapState Written.symbolOf ws p.ast.tokens
  (body, { p with ast.tokens := tokens })

def endAlternative (rule : String) (p : Parser) (a : Alternative) : Parser :=
  (p.addWords a.words).2.endProduction rule (p.addWords a.words).1 a.stop

def define (p : Parser) (d : Definition) : Parser :=
  d.alternatives.foldl (endAlternative d.name.text) (p.beginRule d.name)

theorem addWords_concat (p : Parser) (ws : List Word) (w : Word) :
    p.addWords (ws ++ [w]) = ((p.addWords ws).1 ++ [((p.addWords ws).2.addWord w).1],
      ((p.addWords ws).2.addWord w).2) := by
  simp only [addWords, mapState_append]
  rfl

/-- The reading ends with the outcome and in the state `p`. If it was stopped, there may be tokens of
words behind those that made the state. -/
def EndsIn (result : Except SourceError Cursor × Parser) (outcome : Except SourceError Cursor)
    (p : Parser) : Prop :=
  ∃ ws, result = (outcome, (p.addWords ws).2) ∧ ∀ c, outcome = .ok c → ws = []

theorem endsIn_self (p : Parser) (outcome : Except SourceError Cursor) :
    EndsIn (outcome, p) outcome p := ⟨[], rfl, fun _ _ => rfl⟩

theorem endsIn_error (p : Parser) (ws : List Word) (e : SourceError) :
    EndsIn (.error e, (p.addWords ws).2) (.error e) p := ⟨ws, rfl, fun _ h => by cases h⟩

theorem EndsIn.eq_of_ok (h : EndsIn result (.ok c) p) : result = (.ok c, p) := by
  obtain ⟨ws, hresult, hnil⟩ := h
  obtain rfl := hnil c rfl
  exact hresult

theorem EndsIn.exists_of_error (h : EndsIn result (.error e) p) :
    ∃ ws, result = (.error e, (p.addWords ws).2) := by
  obtain ⟨ws, hresult, -⟩ := h
  exact ⟨ws, hresult⟩

theorem parseTokens_step (p : Parser) (c : Cursor) : parseTokens p c =
    if c.atEnd || c.sees "%" then (.ok c, p)
    else
      match readWord c with
      | .error e => (.error e, p)
      | .ok (w, d) =>
        match skipBlanks true d with
        | .error e => (.error e, p.addToken w.lexeme)
        | .ok d' => parseTokens (p.addToken w.lexeme) d' := by
  rw [parseTokens]
  split
  · rfl
  · split <;> simp only [*]
    split <;> simp only [*]

theorem parseDeclarations_step (p : Parser) (c : Cursor) : parseDeclarations p c =
    if c.atEnd then (.error (.point .prematureEnd (c.offset - 1)), p)
    else if c.sees "%%" then (.ok c, p)
    else if c.sees "%token" then
      match skipBlanks false (c.skip 6) with
      | .error e => (.error e, p)
      | .ok d =>
        match parseTokens p d with
        | (.error e, p') => (.error e, p')
        | (.ok d', p') => parseDeclarations p' d'
    else if c.sees "%start" then
      match skipBlanks false (c.skip 6) with
      | .error e => (.error e, p)
      | .ok d =>
        match readName d with
        | .error e => (.error e, p)
        | .ok (name, d') =>
          match skipBlanks true d' with
          | .error e => (.error e, p.declareStart name)
          | .ok d'' => parseDeclarations (p.declareStart name) d''
    else (.error (.point .unknownDeclaration c.offset), p) := by
  rw [parseDeclarations]
  split
  · rfl
  · split
    · rfl
    · by_cases htokens : c.sees "%token" = true
      · rw [dif_pos htokens, if_pos htokens]
        split <;> simp only [*]
        split <;> simp only [*]
      · rw [dif_neg htokens, if_neg htokens]
        by_cases hstart : c.sees "%start" = true
        · rw [dif_pos hstart, if_pos hstart]
          split <;> simp only [*]
          split <;> simp only [*]
          split <;> simp only [*]
        · rw [dif_neg hstart, if_neg hstart]

theorem parseAlternatives_step (p : Parser) (rule : String) (body : List Symbol) (c : Cursor) :
    parseAlternatives p rule body c =
      if c.atEnd then (.error (.point .incompleteRule c.offset), p)
      else if c.sees "|" then
        match skipBlanks true (c.skip 1) with
        | .error e => (.error e, p.endProduction rule body c.offset)
        | .ok d => parseAlternatives (p.endProduction rule body c.offset) rule [] d
      else if c.sees ";" then (.ok (c.skip 1), p.endProduction rule body c.offset)
      else
        match readWord c with
        | .error e => (.error e, p)
        | .ok (w, d) =>
          match skipBlanks true d with
          | .error e => (.error e, (p.addWord w).2)
          | .ok d' => parseAlternatives (p.addWord w).2 rule (body ++ [(p.addWord w).1]) d' := by
  rw [parseAlternatives]
  split
  · rfl
  · by_cases hbar : c.sees "|" = true
    · rw [dif_pos hbar, if_pos hbar]
      split <;> simp only [*]
    · rw [dif_neg hbar, if_neg hbar]
      split
      · rfl
      · split <;> simp only [*]
        split <;> simp only [*]

theorem parseRules_step (p : Parser) (c : Cursor) : parseRules p c =
    if c.atEnd || c.sees "%%" then (.ok c, p)
    else
      match parseRule p c with
      | (.error e, p') => (.error e, p')
      | (.ok d, p') =>
        match skipBlanks true d with
        | .error e => (.error e, p')
        | .ok d' => parseRules p' d' := by
  rw [parseRules]
  split
  · rfl
  · split <;> simp only [*]
    split <;> simp only [*]

theorem parseTokens_eq (p : Parser) (c : Cursor) :
    parseTokens p c = ((readTokens c).2, (readTokens c).1.foldl addToken p) := by
  fun_induction readTokens c generalizing p with
  | case1 c hc =>
    rw [parseTokens_step, if_pos hc]
    rfl
  | case2 c hc e hw =>
    rw [parseTokens_step, if_neg hc]
    simp only [hw, List.foldl_nil]
  | case3 c hc w d hw e hb =>
    rw [parseTokens_step, if_neg hc]
    simp only [hw, hb, List.foldl_cons, List.foldl_nil]
  | case4 c hc w d hw d' hb names outcome hrest ih =>
    rw [parseTokens_step, if_neg hc]
    simp only [hw, hb, List.foldl_cons, ih, hrest]

theorem parseDeclarations_eq (p : Parser) (c : Cursor) : parseDeclarations p c =
    ((readDeclarations c).2, (readDeclarations c).1.foldl declare p) := by
  fun_induction readDeclarations c generalizing p with
  | case1 c hend =>
    rw [parseDeclarations_step, if_pos hend]
    rfl
  | case2 c hend hrules =>
    rw [parseDeclarations_step, if_neg hend, if_pos hrules]
    rfl
  | case3 c hend hrules htokens e hb =>
    rw [parseDeclarations_step, if_neg hend, if_neg hrules, if_pos htokens]
    simp only [hb, List.foldl_nil]
  | case4 c hend hrules htokens d hb names e ht =>
    rw [parseDeclarations_step, if_neg hend, if_neg hrules, if_pos htokens]
    simp only [hb, parseTokens_eq, ht, List.foldl_cons, List.foldl_nil, declare]
  | case5 c hend hrules htokens d hb names d' ht rest outcome hrest ih =>
    rw [parseDeclarations_step, if_neg hend, if_neg hrules, if_pos htokens]
    simp only [hb, parseTokens_eq, ht, ih, hrest, List.foldl_cons, declare]
  | case6 c hend hrules htokens hstart e hb =>
    rw [parseDeclarations_step, if_neg hend, if_neg hrules, if_neg htokens, if_pos hstart]
    simp only [hb, List.foldl_nil]
  | case7 c hend hrules htokens hstart d hb e hn =>
    rw [parseDeclarations_step, if_neg hend, if_neg hrules, if_neg htokens, if_pos hstart]
    simp only [hb, hn, List.foldl_nil]
  | case8 c hend hrules htokens hstart d hb name d' hn e hb' =>
    rw [parseDeclarations_step, if_neg hend, if_neg hrules, if_neg htokens, if_pos hstart]
    simp only [hb, hn, hb', List.foldl_cons, List.foldl_nil, declare]
  | case9 c hend hrules htokens hstart d hb name d' hn d'' hb' rest outcome hrest ih =>
    rw [parseDeclarations_step, if_neg hend, if_neg hrules, if_neg htokens, if_pos hstart]
    simp only [hb, hn, hb', ih, hrest, List.foldl_cons, declare]
  | case10 c hend hrules htokens hstart =>
    rw [parseDeclarations_step, if_neg hend, if_neg hrules, if_neg htokens, if_neg hstart]
    rfl

/-- The parser begins inside an alternative, with the symbols of the words so far. -/
theorem endsIn_parseAlternatives (p : Parser) (rule : String) (soFar : List Word) (c : Cursor) :
    EndsIn (parseAlternatives (p.addWords soFar).2 rule (p.addWords soFar).1 c)
      (readAlternatives soFar c).2
      ((readAlternatives soFar c).1.foldl (endAlternative rule) p) := by
  fun_induction readAlternatives soFar c generalizing p with
  | case1 soFar c hend =>
    rw [parseAlternatives_step, if_pos hend]
    exact endsIn_error p soFar _
  | case2 soFar c hend hbar e hb =>
    rw [parseAlternatives_step, if_neg hend, if_pos hbar]
    simp only [hb]
    exact endsIn_self (endAlternative rule p ⟨soFar, c.offset⟩) _
  | case3 soFar c hend hbar d hb rest outcome hrest ih =>
    rw [parseAlternatives_step, if_neg hend, if_pos hbar]
    simp only [hb]
    have hnext := ih (endAlternative rule p ⟨soFar, c.offset⟩)
    rw [hrest] at hnext
    exact hnext
  | case4 soFar c hend hbar hsemicolon =>
    rw [parseAlternatives_step, if_neg hend, if_neg hbar, if_pos hsemicolon]
    exact endsIn_self (endAlternative rule p ⟨soFar, c.offset⟩) _
  | case5 soFar c hend hbar hsemicolon e hw =>
    rw [parseAlternatives_step, if_neg hend, if_neg hbar, if_neg hsemicolon]
    simp only [hw]
    exact endsIn_error p soFar _
  | case6 soFar c hend hbar hsemicolon w d hw e hb =>
    rw [parseAlternatives_step, if_neg hend, if_neg hbar, if_neg hsemicolon]
    simp only [hw, hb]
    have hwords := congrArg Prod.snd (addWords_concat p soFar w)
    rw [← hwords]
    exact endsIn_error p (soFar ++ [w]) _
  | case7 soFar c hend hbar hsemicolon w d hw d' hb ih =>
    rw [parseAlternatives_step, if_neg hend, if_neg hbar, if_neg hsemicolon]
    simp only [hw, hb]
    have hnext := ih p
    rw [addWords_concat] at hnext
    exact hnext

theorem endsIn_parseRule (p : Parser) (c : Cursor) :
    EndsIn (parseRule p c) (readDefinition c).2 ((readDefinition c).1.foldl define p) := by
  rw [parseRule, readDefinition]
  cases hn : readName c with
  | error e => exact endsIn_self p _
  | ok named =>
    obtain ⟨name, d⟩ := named
    cases hb : skipBlanks true d with
    | error e =>
      simp only [hb]
      exact endsIn_self (p.beginRule name) _
    | ok d' =>
      simp only [hb]
      by_cases hcolon : d'.sees ":" = true
      · cases hb' : skipBlanks true (d'.skip 1) with
        | error e =>
          simp only [hcolon, if_true]
          exact endsIn_self (p.beginRule name) _
        | ok d'' =>
          simp only [hcolon, if_true]
          exact endsIn_parseAlternatives (p.beginRule name) name.text [] d''
      · simp only [hcolon]
        exact endsIn_self (p.beginRule name) _

theorem endsIn_parseRules (p : Parser) (c : Cursor) :
    EndsIn (parseRules p c) (readDefinitions c).2 ((readDefinitions c).1.foldl define p) := by
  fun_induction readDefinitions c generalizing p with
  | case1 c hc =>
    rw [parseRules_step, if_pos hc]
    exact endsIn_self p _
  | case2 c hc defs e hd =>
    have hrule := endsIn_parseRule p c
    rw [hd] at hrule
    obtain ⟨ws, hrule⟩ := hrule.exists_of_error
    rw [parseRules_step, if_neg hc]
    simp only [hrule]
    exact endsIn_error _ ws e
  | case3 c hc defs d hd e hb =>
    have hrule := endsIn_parseRule p c
    rw [hd] at hrule
    rw [parseRules_step, if_neg hc]
    simp only [hrule.eq_of_ok, hb]
    exact endsIn_self _ _
  | case4 c hc defs d hd d' hb rest outcome hrest ih =>
    have hrule := endsIn_parseRule p c
    rw [hd] at hrule
    rw [parseRules_step, if_neg hc]
    simp only [hrule.eq_of_ok, hb]
    have hnext := ih (defs.foldl define p)
    rw [hrest] at hnext
    rw [List.foldl_append]
    exact hnext

/-- The errors at the marks that close alternatives without words. -/
def emptyErrors (alternatives : List Alternative) : List SourceError :=
  alternatives.filterMap fun a =>
    if a.words.isEmpty then some (.point .emptyProduction a.stop) else none

theorem deferred_endAlternative (rule : String) (p : Parser) (a : Alternative) :
    (endAlternative rule p a).deferred = p.deferred ++ emptyErrors [a] := by
  have hlength : (p.addWords a.words).1.length = a.words.length :=
    length_mapState Written.symbolOf a.words p.ast.tokens
  rw [endAlternative, endProduction]
  cases hwords : a.words with
  | nil => simp [addWords, emptyErrors, hwords]
  | cons w ws =>
    have hne : (p.addWords (w :: ws)).1.isEmpty = false := by
      rw [List.isEmpty_eq_false_iff, ← List.length_pos_iff, ← hwords, hlength, hwords]
      exact Nat.succ_pos _
    rw [hne, if_neg Bool.false_ne_true]
    simp [addWords, emptyErrors, hwords]

theorem deferred_foldl_endAlternative (rule : String) (alternatives : List Alternative) (p : Parser) :
    (alternatives.foldl (endAlternative rule) p).deferred =
      p.deferred ++ emptyErrors alternatives := by
  induction alternatives generalizing p with
  | nil => exact (List.append_nil _).symm
  | cons a alternatives ih =>
    have hcons : emptyErrors (a :: alternatives) = emptyErrors [a] ++ emptyErrors alternatives :=
      List.filterMap_append (l := [a])
    rw [List.foldl_cons, ih, deferred_endAlternative, List.append_assoc, hcons]

theorem deferred_foldl_define (definitions : List Definition) (p : Parser) :
    (definitions.foldl define p).deferred =
      p.deferred ++ emptyErrors (definitions.flatMap (·.alternatives)) := by
  induction definitions generalizing p with
  | nil => exact (List.append_nil _).symm
  | cons d definitions ih =>
    have hfirst : (p.define d).deferred = p.deferred ++ emptyErrors d.alternatives :=
      deferred_foldl_endAlternative _ _ _
    rw [List.foldl_cons, ih, hfirst, List.append_assoc, List.flatMap_cons, emptyErrors, emptyErrors,
      emptyErrors, List.filterMap_append]

/-- The place of the first start rule and those of the later ones, if there are any. -/
def repeated? : List Lexeme → Option (Span × List Span)
  | first :: next :: later => some (first.span, (next :: later).map (·.span))
  | _ => none

/-- Nothing is in the state but these declared start rules and tokens. -/
structure HasDeclared (p : Parser) (starts tokens : List Lexeme) : Prop where
  start : p.ast.start = starts.head?
  duplicates : p.duplicates = repeated? starts
  tokens : p.ast.tokens = tokens.foldl Written.addToken []
  rules : p.ast.rules = []
  productions : p.ast.productions = []
  deferred : p.deferred = []

theorem HasDeclared.declareStart {starts tokens : List Lexeme} (h : p.HasDeclared starts tokens)
    (name : Lexeme) : (p.declareStart name).HasDeclared (starts ++ [name]) tokens := by
  obtain ⟨hstart, hduplicates, htokens, hrules, hproductions, hdeferred⟩ := h
  cases starts with
  | nil =>
    rw [List.head?_nil] at hstart
    rw [Parser.declareStart, hstart]
    exact ⟨rfl, hduplicates, htokens, hrules, hproductions, hdeferred⟩
  | cons first later =>
    rw [List.head?_cons] at hstart
    rw [Parser.declareStart, hstart]
    refine ⟨hstart, ?_, htokens, hrules, hproductions, hdeferred⟩
    show some _ = _
    rw [hduplicates]
    cases later with
    | nil => rfl
    | cons next later =>
      rw [List.cons_append, List.cons_append, repeated?, repeated?, Option.getD_some, List.map_cons,
        List.map_cons, List.map_append]
      rfl

theorem HasDeclared.addTokens {starts tokens : List Lexeme} (h : p.HasDeclared starts tokens)
    (names : List Lexeme) : (names.foldl addToken p).HasDeclared starts (tokens ++ names) := by
  induction names generalizing p tokens with
  | nil =>
    rw [List.append_nil]
    exact h
  | cons name names ih =>
    have hfirst : (p.addToken name).HasDeclared starts (tokens ++ [name]) := by
      refine ⟨h.start, h.duplicates, ?_, h.rules, h.productions, h.deferred⟩
      rw [List.foldl_append, ← h.tokens]
      rfl
    have hall := ih hfirst
    rw [List.append_assoc] at hall
    exact hall

theorem HasDeclared.declare {starts tokens : List Lexeme} (h : p.HasDeclared starts tokens)
    (s : Sheet) : (s.declarations.foldl Parser.declare p).HasDeclared (starts ++ s.starts)
      (tokens ++ s.declared) := by
  obtain ⟨declarations, definitions, stoppedBy⟩ := s
  induction declarations generalizing p starts tokens with
  | nil =>
    have hsame : p.HasDeclared (starts ++ []) (tokens ++ []) := by
      rw [List.append_nil, List.append_nil]
      exact h
    exact hsame
  | cons d declarations ih =>
    cases d with
    | tokens names =>
      have hall := ih (h.addTokens names)
      rw [List.append_assoc] at hall
      exact hall
    | start name =>
      have hall := ih (h.declareStart name)
      rw [List.append_assoc] at hall
      exact hall

def declared (s : Sheet) : Parser := s.declarations.foldl declare fresh

def ofSheet (s : Sheet) : Parser := s.definitions.foldl define (declared s)

theorem hasDeclared_declared (s : Sheet) : (declared s).HasDeclared s.starts s.declared := by
  have hfresh : fresh.HasDeclared [] [] := ⟨rfl, rfl, rfl, rfl, rfl, rfl⟩
  exact hfresh.declare s

theorem duplicateErrors_declared (s : Sheet) :
    (declared s).duplicateErrors = s.duplicateStarts := by
  rw [duplicateErrors, (hasDeclared_declared s).duplicates, Sheet.duplicateStarts]
  match s.starts with
  | [] => rfl
  | [_] => rfl
  | _ :: _ :: _ => rfl

theorem deferred_ofSheet (s : Sheet) : (ofSheet s).deferred = s.emptyAlternatives := by
  rw [ofSheet, deferred_foldl_define, (hasDeclared_declared s).deferred]
  rfl

def stop? : Except SourceError Cursor → Option SourceError
  | .error e => some e
  | .ok _ => none

theorem exists_endsIn_parseSection (declarations : List Declaration) (p : Parser)
    (hc : c.sees "%%" = true) : ∃ outcome,
      EndsIn (parseSection p c) outcome
        ((Sheet.readRules declarations c).definitions.foldl define p) ∧
      (Sheet.readRules declarations c).stoppedBy = stop? outcome ∧
      (Sheet.readRules declarations c).declarations = declarations := by
  rw [parseSection, if_pos hc, Sheet.readRules]
  cases skipBlanks true (c.skip 2) with
  | error e => exact ⟨.error e, endsIn_self p _, rfl, rfl⟩
  | ok d =>
    have hrules := endsIn_parseRules p d
    cases hd : readDefinitions d with
    | mk definitions outcome =>
      rw [hd] at hrules
      cases outcome with
      | error e =>
        obtain ⟨ws, hresult⟩ := hrules.exists_of_error
        simp only [hd, hresult]
        exact ⟨.error e, endsIn_error _ ws e, rfl, trivial⟩
      | ok d' =>
        simp only [hd, hrules.eq_of_ok]
        cases readEnd d' with
        | error e => exact ⟨.error e, endsIn_self _ _, rfl, rfl⟩
        | ok d'' => exact ⟨.ok d'', endsIn_self _ _, rfl, rfl⟩

theorem errors_eq (s : Sheet) : s.errors =
    (declared s).duplicateErrors ++ (ofSheet s).deferred ++ s.stoppedBy.toList := by
  rw [Sheet.errors, duplicateErrors_declared, deferred_ofSheet]

theorem errors_isEmpty_of_stopped {s : Sheet} (h : s.stoppedBy = some e) :
    s.errors.isEmpty = false := by
  rw [List.isEmpty_eq_false_iff, errors_eq, h]
  exact List.append_ne_nil_of_right_ne_nil _ (List.cons_ne_nil e [])

theorem report_eq {s : Sheet} (h : EndsIn result outcome (ofSheet s))
    (hstopped : s.stoppedBy = stop? outcome) : (declared s).report result =
      if s.errors.isEmpty then .ok (ofSheet s).ast else .error s.errors := by
  cases outcome with
  | error e =>
    obtain ⟨ws, rfl⟩ := h.exists_of_error
    rw [errors_isEmpty_of_stopped hstopped, errors_eq, hstopped]
    rfl
  | ok c =>
    obtain rfl := h.eq_of_ok
    have herrors : s.errors = (declared s).duplicateErrors ++ (ofSheet s).deferred := by
      rw [errors_eq, hstopped]
      exact List.append_nil _
    rw [herrors]
    rfl

theorem parse_eq (text : String) : parse text =
    if (Sheet.read text).errors.isEmpty then .ok (ofSheet (Sheet.read text)).ast
    else .error (Sheet.read text).errors := by
  rw [parse, parseHead, Sheet.read]
  cases skipBlanks true (Cursor.start text) with
  | error e => rfl
  | ok c =>
    simp only [parseDeclarations_eq]
    cases hd : readDeclarations c with
    | mk declarations outcome =>
      cases outcome with
      | error e =>
        have hstopped : (⟨declarations, [], some e⟩ : Sheet).errors.isEmpty = false :=
          errors_isEmpty_of_stopped rfl
        have herrors : (⟨declarations, [], some e⟩ : Sheet).errors =
            (declarations.foldl declare fresh).duplicateErrors ++ [e] := by
          rw [errors_eq, deferred_ofSheet]
          exact congrArg (· ++ [e]) (List.append_nil _)
        dsimp only
        rw [hstopped, herrors]
        rfl
      | ok d =>
        obtain ⟨outcome, hends, hstopped, hdeclarations⟩ := exists_endsIn_parseSection declarations
          (declarations.foldl declare fresh) (Bytes.sees_of_readDeclarations hd)
        have hstate : declarations.foldl declare fresh = declared (Sheet.readRules declarations d) := by
          rw [declared, hdeclarations]
        dsimp only
        rw [hstate] at hends ⊢
        exact report_eq hends hstopped

theorem parse_eq_ok_iff {text : String} {t : Ast} : parse text = .ok t ↔
    (Sheet.read text).errors = [] ∧ t = (ofSheet (Sheet.read text)).ast := by
  rw [parse_eq]
  by_cases hnone : (Sheet.read text).errors.isEmpty = true
  · rw [if_pos hnone, and_iff_right (List.isEmpty_iff.1 hnone), Except.ok.injEq]
    exact eq_comm
  · rw [if_neg hnone]
    exact iff_of_false (fun h => by cases h) fun h => hnone (List.isEmpty_iff.2 h.1)

theorem parse_eq_error_iff {text : String} {errors : List SourceError} :
    parse text = .error errors ↔ errors ≠ [] ∧ errors = (Sheet.read text).errors := by
  rw [parse_eq]
  by_cases hnone : (Sheet.read text).errors.isEmpty = true
  · rw [if_pos hnone]
    refine iff_of_false (fun h => by cases h) fun h => h.1 ?_
    rw [h.2, List.isEmpty_iff.1 hnone]
  · rw [if_neg hnone, Except.error.injEq]
    constructor
    · intro h
      rw [← h]
      exact ⟨mt List.isEmpty_iff.2 hnone, rfl⟩
    · exact fun h => h.2.symm

end Parser

end GrammarRepair
