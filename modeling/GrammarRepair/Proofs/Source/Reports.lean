import GrammarRepair.Proofs.Grammar.Origins
import GrammarRepair.Proofs.Source.Ast
import GrammarRepair.Proofs.Source.Places

/-!
All errors of a source in their order. Alternatives are closed one after the other, so the errors about
empty ones are in order, whether the source is read to its end or not. Main statement: what the parser
reports is complete and in order, and so is what it then finds wrong with the references.
-/

namespace GrammarRepair

open Source

/-- Where the alternative ends, there is a bar or a semicolon. -/
def Alternative.ClosedIn (text : String) (a : Alternative) : Prop :=
  ∃ mark, (mark = "|" ∨ mark = ";") ∧ Bytes.slice text a.stop (a.stop + 1) = .ok mark.toList

/-- The places are ascending from one offset on, and before the cursor if the reading went on. -/
def Ascend (lo : Nat) (places : List Nat) (outcome : Except SourceError Cursor) : Prop :=
  ∃ hi, Between lo places hi ∧ ∀ d, outcome = .ok d → hi ≤ d.offset

theorem ascend_nil (c : Cursor) (e : SourceError) : Ascend c.offset [] (.error e) :=
  ⟨c.offset, .nil (Nat.le_refl _), fun d h => by cases h⟩

theorem Ascend.after {lo mid : Nat} {before places : List Nat} {outcome : Except SourceError Cursor}
    (hbefore : Between lo before mid) (h : Ascend mid places outcome) :
    Ascend lo (before ++ places) outcome := by
  obtain ⟨hi, hplaces, hle⟩ := h
  exact ⟨hi, hbefore.append hplaces, hle⟩

namespace Source

variable {text : String} {c : Cursor} {soFar : List Word}

theorem closedIn_of_sees (hc : c.On text) (words : List Word) {mark : String}
    (hmark : mark = "|" ∨ mark = ";") (h : c.sees mark = true) :
    (⟨words, c.offset⟩ : Alternative).ClosedIn text := by
  have hsize : mark.utf8ByteSize = 1 := by
    rcases hmark with rfl | rfl
    · rfl
    · rfl
  have hslice := Bytes.slice_of_sees hc h
  rw [hsize] at hslice
  exact ⟨mark, hmark, hslice⟩

theorem closedIn_readAlternatives (hc : c.On text) :
    ∀ a ∈ (readAlternatives soFar c).1, a.ClosedIn text := by
  fun_induction readAlternatives soFar c with
  | case1 soFar c hend => exact List.forall_mem_nil _
  | case2 soFar c hend hbar e hb =>
    exact List.forall_mem_singleton.2 (closedIn_of_sees hc soFar (.inl rfl) hbar)
  | case3 soFar c hend hbar d hb rest outcome hrest ih =>
    have hlater := ih (on_of_skipBlanks (hc.skip 1) hb)
    rw [hrest] at hlater
    exact List.forall_mem_cons.2 ⟨closedIn_of_sees hc soFar (.inl rfl) hbar, hlater⟩
  | case4 soFar c hend hbar hsemicolon =>
    exact List.forall_mem_singleton.2 (closedIn_of_sees hc soFar (.inr rfl) hsemicolon)
  | case5 soFar c hend hbar hsemicolon e hw => exact List.forall_mem_nil _
  | case6 soFar c hend hbar hsemicolon w d hw e hb => exact List.forall_mem_nil _
  | case7 soFar c hend hbar hsemicolon w d hw d' hb ih =>
    exact ih (on_of_skipBlanks (on_of_readWord hc hw).2 hb)

theorem closedIn_readDefinition (hc : c.On text) :
    ∀ d ∈ (readDefinition c).1, ∀ a ∈ d.alternatives, a.ClosedIn text := by
  rw [readDefinition]
  cases hn : readName c with
  | error e => exact List.forall_mem_nil _
  | ok named =>
    obtain ⟨name, d⟩ := named
    have hbare : ∀ d' ∈ [(⟨name, []⟩ : Definition)], ∀ a ∈ d'.alternatives, a.ClosedIn text :=
      List.forall_mem_singleton.2 (List.forall_mem_nil _)
    have hd := (on_of_readName hc hn).2
    cases hb : skipBlanks true d with
    | error e =>
      simp only [hb]
      exact hbare
    | ok d' =>
      have hd' := on_of_skipBlanks hd hb
      simp only [hb]
      by_cases hcolon : d'.sees ":" = true
      · simp only [hcolon, if_true]
        cases hb' : skipBlanks true (d'.skip 1) with
        | error e => exact hbare
        | ok d'' =>
          exact List.forall_mem_singleton.2
            (closedIn_readAlternatives (on_of_skipBlanks (hd'.skip 1) hb'))
      · simp only [hcolon]
        exact hbare

theorem closedIn_readDefinitions (hc : c.On text) :
    ∀ d ∈ (readDefinitions c).1, ∀ a ∈ d.alternatives, a.ClosedIn text := by
  fun_induction readDefinitions c with
  | case1 c hstop => exact List.forall_mem_nil _
  | case2 c hstop defs e hd =>
    have hfirst := closedIn_readDefinition hc
    rwa [hd] at hfirst
  | case3 c hstop defs d hd e hb =>
    have hfirst := closedIn_readDefinition hc
    rwa [hd] at hfirst
  | case4 c hstop defs d hd d' hb rest outcome hrest ih =>
    have hfirst := closedIn_readDefinition hc
    rw [hd] at hfirst
    have hlater := ih (on_of_skipBlanks (Bytes.on_of_readDefinition hc hd) hb)
    rw [hrest] at hlater
    exact List.forall_mem_append.2 ⟨hfirst, hlater⟩

/-- A mark lies between its place and what comes behind it. -/
theorem between_mark {mark : String} (h : c.sees mark = true) (hmark : mark.toList ≠ []) :
    Between c.offset [c.offset] (c.skip 1).offset := by
  have hne : c.ahead ≠ [] := by
    intro hnil
    rw [Cursor.sees, hnil] at h
    exact hmark (List.prefix_nil.1 (List.isPrefixOf_iff_prefix.1 h))
  exact .singleton (Nat.le_refl _) (Cursor.offset_lt_skip Nat.one_pos hne)

theorem ascend_readAlternatives (soFar : List Word) (c : Cursor) :
    Ascend c.offset ((readAlternatives soFar c).1.map (·.stop)) (readAlternatives soFar c).2 := by
  fun_induction readAlternatives soFar c with
  | case1 soFar c hend => exact ascend_nil c _
  | case2 soFar c hend hbar e hb =>
    exact ⟨_, between_mark hbar (by decide), fun d h => by cases h⟩
  | case3 soFar c hend hbar d hb rest outcome hrest ih =>
    rw [hrest] at ih
    have hmark := between_mark hbar (by decide)
    exact .after (hmark.widen (Nat.le_refl _) (offset_le_skipBlanks hb)) ih
  | case4 soFar c hend hbar hsemicolon =>
    refine ⟨_, between_mark hsemicolon (by decide), fun d h => ?_⟩
    cases h
    exact Nat.le_refl _
  | case5 soFar c hend hbar hsemicolon e hw => exact ascend_nil c e
  | case6 soFar c hend hbar hsemicolon w d hw e hb => exact ascend_nil c e
  | case7 soFar c hend hbar hsemicolon w d hw d' hb ih =>
    have hword := (between_readWord hw).widen (Nat.le_refl _) (offset_le_skipBlanks hb)
    exact .after (.nil hword.le) ih

theorem ascend_readDefinition (c : Cursor) :
    Ascend c.offset ((readDefinition c).1.flatMap (·.alternatives.map (·.stop)))
      (readDefinition c).2 := by
  rw [readDefinition]
  cases hn : readName c with
  | error e => exact ascend_nil c e
  | ok named =>
    obtain ⟨name, d⟩ := named
    cases hb : skipBlanks true d with
    | error e =>
      simp only [hb]
      exact ascend_nil c e
    | ok d' =>
      simp only [hb]
      by_cases hcolon : d'.sees ":" = true
      · simp only [hcolon, if_true]
        cases hb' : skipBlanks true (d'.skip 1) with
        | error e => exact ascend_nil c e
        | ok d'' =>
          have hle : c.offset ≤ d''.offset := calc
            c.offset ≤ d.offset := (between_readName hn).le
            _ ≤ d'.offset := offset_le_skipBlanks hb
            _ ≤ (d'.skip 1).offset := d'.offset_le_skip 1
            _ ≤ d''.offset := offset_le_skipBlanks hb'
          have hall := Ascend.after (.nil hle) (ascend_readAlternatives [] d'')
          rw [← List.append_nil (List.map _ _)] at hall
          exact hall
      · simp only [hcolon]
        exact ascend_nil c _

theorem ascend_readDefinitions (c : Cursor) :
    Ascend c.offset ((readDefinitions c).1.flatMap (·.alternatives.map (·.stop)))
      (readDefinitions c).2 := by
  fun_induction readDefinitions c with
  | case1 c hstop =>
    refine ⟨c.offset, .nil (Nat.le_refl _), fun d h => ?_⟩
    cases h
    exact Nat.le_refl _
  | case2 c hstop defs e hd =>
    have hfirst := ascend_readDefinition c
    rwa [hd] at hfirst
  | case3 c hstop defs d hd e hb =>
    obtain ⟨hi, hplaces, -⟩ := hd ▸ ascend_readDefinition c
    exact ⟨hi, hplaces, fun d h => by cases h⟩
  | case4 c hstop defs d hd d' hb rest outcome hrest ih =>
    obtain ⟨hi, hplaces, hle⟩ := hd ▸ ascend_readDefinition c
    have hbefore := hplaces.widen (Nat.le_refl _)
      (Nat.le_trans (hle d rfl) (offset_le_skipBlanks hb))
    rw [hrest] at ih
    rw [List.flatMap_append]
    exact .after hbefore ih

end Source

namespace Sheet

variable {text : String}

def alternatives (s : Sheet) : List Alternative := s.definitions.flatMap (·.alternatives)

def emptyOnes (s : Sheet) : List Alternative := s.alternatives.filter (·.words.isEmpty)

/-- Every alternative that was read has its mark, and the marks are in order. -/
structure Marked (text : String) (s : Sheet) : Prop where
  closed : ∀ a ∈ s.alternatives, a.ClosedIn text
  ascending : (s.alternatives.map (·.stop)).Pairwise (· < ·)

theorem marked_of_no_definitions (declarations : List Declaration) (e : Option SourceError) :
    (⟨declarations, [], e⟩ : Sheet).Marked text :=
  ⟨List.forall_mem_nil _, List.Pairwise.nil⟩

theorem marked_of_readDefinitions {c : Cursor} (hc : c.On text) (declarations : List Declaration)
    (e : Option SourceError) :
    (⟨declarations, (readDefinitions c).1, e⟩ : Sheet).Marked text := by
  obtain ⟨hi, hplaces, -⟩ := ascend_readDefinitions c
  refine ⟨fun a ha => ?_, ?_⟩
  · obtain ⟨d, hd, ha⟩ := List.mem_flatMap.1 ha
    exact closedIn_readDefinitions hc d hd a ha
  · rw [alternatives, List.map_flatMap]
    exact hplaces.ascending

theorem marked_readRules {c : Cursor} (hc : c.On text) (declarations : List Declaration) :
    (readRules declarations c).Marked text := by
  rw [readRules]
  cases hb : skipBlanks true (c.skip 2) with
  | error e => exact marked_of_no_definitions declarations _
  | ok d =>
    have hd := marked_of_readDefinitions (on_of_skipBlanks (hc.skip 2) hb) declarations
    cases hdefinitions : readDefinitions d with
    | mk definitions outcome =>
      rw [hdefinitions] at hd
      simp only [hdefinitions]
      cases outcome with
      | error e => exact hd _
      | ok d' =>
        cases hend : readEnd d' with
        | error e =>
          simp only [hend]
          exact hd _
        | ok d'' =>
          simp only [hend]
          exact hd _

theorem marked_read (text : String) : (read text).Marked text := by
  rw [read]
  cases hb : skipBlanks true (Cursor.start text) with
  | error e => exact marked_of_no_definitions [] _
  | ok c =>
    have hc := on_of_skipBlanks (Cursor.on_start text) hb
    cases hdeclarations : readDeclarations c with
    | mk declarations outcome =>
      simp only [hdeclarations]
      cases outcome with
      | error e => exact marked_of_no_definitions declarations _
      | ok d => exact marked_readRules (Bytes.on_of_readDeclarations hc hdeclarations) declarations

theorem emptyAlternatives_eq (s : Sheet) :
    s.emptyAlternatives = s.emptyOnes.map fun a => .point .emptyProduction a.stop := by
  rw [emptyAlternatives, emptyOnes, alternatives]
  induction s.definitions.flatMap (·.alternatives) with
  | nil => rfl
  | cons a as ih =>
    rw [List.filterMap_cons, List.filter_cons, ih]
    by_cases hempty : a.words.isEmpty = true
    · rw [if_pos hempty, if_pos hempty, List.map_cons]
    · rw [if_neg hempty, if_neg hempty]

/-- There is an error about start rules exactly if there are two or more. -/
theorem duplicateStarts_cases (s : Sheet) :
    (s.starts.length < 2 ∧ s.duplicateStarts = []) ∨
      ∃ first next later, s.starts = first :: next :: later ∧
        s.duplicateStarts = [⟨.duplicateStart ((next :: later).map (·.span)), first.span⟩] := by
  rw [duplicateStarts]
  cases s.starts with
  | nil => exact .inl ⟨Nat.zero_lt_two, rfl⟩
  | cons first others =>
    cases others with
    | nil => exact .inl ⟨Nat.one_lt_two, rfl⟩
    | cons next later => exact .inr ⟨first, next, later, rfl, rfl⟩

end Sheet

namespace Written

variable {s : Sheet}

theorem hasRule_ofSheet_iff {text : String} :
    (ofSheet s).hasRule text = true ↔ text ∈ s.definitions.map (·.name.text) := by
  have hrules : (ofSheet s).rules =
    merge (mapState ruleOf s.definitions (s.declared.foldl addToken [])).1 := rfl
  have hnames := congrArg (List.map (·.text))
    (names_mapState_ruleOf s.definitions (s.declared.foldl addToken []))
  rw [List.map_map, List.map_map] at hnames
  rw [hasRule_iff, hrules, names_merge, mem_distinct]
  exact iff_of_eq (congrArg (text ∈ ·) hnames)

theorem unknownRules_ofSheet (s : Sheet) : (ofSheet s).unknownRules =
    ((ofSheet s).rules.flatMap (·.bodies.flatten)).filterMap
      (Symbol.unknown? (s.definitions.map (·.name.text))) :=
  unknownRules_eq fun _ => hasRule_ofSheet_iff

theorem startErrors_cases (s : Sheet) :
    ((ofSheet s).start = none ∧ (ofSheet s).startErrors = [.point .noStartRule 0]) ∨
      ∃ name, (ofSheet s).start = some name ∧
        ((name.text ∉ s.definitions.map (·.name.text) ∧
            (ofSheet s).startErrors = [⟨.invalidStartRule name.text, name.span⟩]) ∨
          (name.text ∈ s.definitions.map (·.name.text) ∧ (ofSheet s).startErrors = [])) := by
  rw [startErrors]
  cases (ofSheet s).start with
  | none => exact .inl ⟨rfl, rfl⟩
  | some name =>
    refine .inr ⟨name, rfl, ?_⟩
    by_cases hrule : (ofSheet s).hasRule name.text = true
    · exact .inr ⟨hasRule_ofSheet_iff.1 hrule, if_pos hrule⟩
    · exact .inl ⟨mt hasRule_ofSheet_iff.2 hrule, if_neg hrule⟩

end Written

/-- A source is rejected by the parser, or for what is wrong with its references. -/
theorem rejected_iff {w : Width} {text : String} {errors : List SourceError} :
    Grammar.ofSource w text = .error (.rejected errors) ↔ Parser.read text = .error errors := by
  have hread : Written.read text = (Parser.read text).map Ast.written := (Parser.read_eq text).symm
  rw [Grammar.ofSource, hread]
  cases Parser.read text with
  | error errors' =>
    constructor
    · rintro ⟨⟩
      rfl
    · rintro ⟨⟩
      rfl
  | ok t =>
    refine iff_of_false (fun h => ?_) (fun h => by cases h)
    have hmap : (Except.ok t : Except (List SourceError) Ast).map Ast.written = .ok t.written := rfl
    simp only [hmap] at h
    split at h <;> cases h

/-- There are errors of form, or none and then errors of reference. -/
theorem Parser.read_eq_error_iff {text : String} {errors : List SourceError} :
    Parser.read text = .error errors ↔ errors ≠ [] ∧
      (Parser.parse text = .error errors ∨
        ∃ t, Parser.parse text = .ok t ∧ t.validate = errors) := by
  rw [Parser.read]
  cases hparse : Parser.parse text with
  | error errors' =>
    constructor
    · intro h
      rw [← Except.error.inj h]
      exact ⟨(Parser.parse_eq_error_iff.1 hparse).1, .inl rfl⟩
    · rintro ⟨-, h | ⟨t, h, -⟩⟩
      · exact h
      · cases h
  | ok t =>
    simp only
    by_cases hvalid : t.validate.isEmpty = true
    · rw [if_pos hvalid]
      refine iff_of_false (fun h => by cases h) ?_
      rintro ⟨hne, h | ⟨t', h, rfl⟩⟩
      · cases h
      · cases h
        exact hne (List.isEmpty_iff.1 hvalid)
    · rw [if_neg hvalid, Except.error.injEq]
      constructor
      · intro h
        rw [← h]
        exact ⟨mt List.isEmpty_iff.2 hvalid, .inr ⟨t, rfl, rfl⟩⟩
      · rintro ⟨-, h | ⟨t', h, rfl⟩⟩
        · cases h
        · cases h
          rfl

/-- The parser reports all errors of form in order: one at the first declared start rule, with the
places of all others, exactly if there are two or more; one for each alternative without words that was
read, in order and at the mark that closes it; and the one that stopped the reading. A source without
such errors is parsed. Then all errors of reference are reported in order: that there is no start
rule or that it is not defined, and one for every reference to a rule that is not defined, by rule and
production. A source is rejected with one of these lists, and only if there are errors in it. -/
theorem parser_reports_all (text : String) :
    (∃ duplicate errors : List SourceError,
      (((Sheet.read text).starts.length < 2 ∧ duplicate = []) ∨
        ∃ first next later, (Sheet.read text).starts = first :: next :: later ∧
          duplicate = [⟨.duplicateStart ((next :: later).map (·.span)), first.span⟩]) ∧
      errors = duplicate ++
        (Sheet.read text).emptyOnes.map (fun a => .point .emptyProduction a.stop) ++
          (Sheet.read text).stoppedBy.toList ∧
      ((errors = [] ∧ ∃ t, Parser.parse text = .ok t) ∨
        (errors ≠ [] ∧ Parser.parse text = .error errors))) ∧
    ((Sheet.read text).emptyOnes.map (·.stop)).Pairwise (· < ·) ∧
    (∀ a ∈ (Sheet.read text).emptyOnes, a.ClosedIn text) ∧
    (∀ t, Parser.parse text = .ok t → t.written = Written.ofSheet (Sheet.read text) ∧
      ∃ start : List SourceError,
        ((t.start = none ∧ start = [.point .noStartRule 0]) ∨
          ∃ name, t.start = some name ∧
            ((name.text ∉ (Sheet.read text).definitions.map (·.name.text) ∧
                start = [⟨.invalidStartRule name.text, name.span⟩]) ∨
              (name.text ∈ (Sheet.read text).definitions.map (·.name.text) ∧ start = []))) ∧
        t.validate = start ++ (t.written.rules.flatMap (·.bodies.flatten)).filterMap
          (Symbol.unknown? ((Sheet.read text).definitions.map (·.name.text)))) ∧
    ∀ w errors, Grammar.ofSource w text = .error (.rejected errors) ↔ errors ≠ [] ∧
      (Parser.parse text = .error errors ∨
        ∃ t, Parser.parse text = .ok t ∧ t.validate = errors) := by
  have hmarked := Sheet.marked_read text
  have hsublist : (Sheet.read text).emptyOnes.Sublist (Sheet.read text).alternatives :=
    List.filter_sublist
  refine ⟨⟨(Sheet.read text).duplicateStarts, (Sheet.read text).errors,
    (Sheet.read text).duplicateStarts_cases, ?_, ?_⟩, ?_, ?_, ?_, ?_⟩
  · rw [Sheet.errors, Sheet.emptyAlternatives_eq]
  · by_cases hnone : (Sheet.read text).errors = []
    · exact .inl ⟨hnone, _, Parser.parse_eq_ok_iff.2 ⟨hnone, rfl⟩⟩
    · exact .inr ⟨hnone, Parser.parse_eq_error_iff.2 ⟨hnone, rfl⟩⟩
  · exact hmarked.ascending.sublist (hsublist.map _)
  · exact fun a ha => hmarked.closed a (hsublist.subset ha)
  · intro t ht
    have hwritten : t.written = Written.ofSheet (Sheet.read text) := by
      rw [(Parser.parse_eq_ok_iff.1 ht).2, Ast.written_ofSheet]
    have hstart : t.start = (Written.ofSheet (Sheet.read text)).start := congrArg Written.start hwritten
    refine ⟨hwritten, (Written.ofSheet (Sheet.read text)).startErrors, ?_, ?_⟩
    · rw [hstart]
      exact Written.startErrors_cases _
    · rw [Ast.validate_eq, hwritten, Written.errors, Written.unknownRules_ofSheet]
  · intro w errors
    rw [rejected_iff, Parser.read_eq_error_iff]

/-- All three kinds of errors of form: a start rule is declared again, an alternative is empty, and the
source ends behind the name of a rule. -/
example : Parser.parse "%start A\n%start B\n%%\nA: | 'a';\nB" = .error
    [⟨.duplicateStart [⟨16, 17, by decide⟩], ⟨7, 8, by decide⟩⟩, .point .emptyProduction 24,
      .point .missingColon 32] := by
  decide +kernel

end GrammarRepair
