import GrammarRepair.Proofs.MapState
import GrammarRepair.Proofs.Source.Places
import GrammarRepair.Proofs.Source.Written

/-!
Which words are tokens. Reading the words of all rules in a row, a quoted word makes its text known,
and a bare word is a token if its text is known when it is read, be it from a declaration or from a
quoted word before. Main statement: that is what each word becomes, so the bare words with declared
texts are the tokens among them exactly if no other text is quoted first and then bare; which of two
words comes first does not matter if no other text is both.
-/

namespace GrammarRepair

namespace Sheet

variable {s s' : Sheet} {i : Nat} {v w : Word} {text : String}

/-- Is the text in a `%token` declaration? -/
def Declares (s : Sheet) (text : String) : Prop := text ∈ s.declared.map (·.text)

/-- Is the text declared, or quoted before the `i`-th word? -/
def KnowsAt (s : Sheet) (i : Nat) (text : String) : Prop :=
  s.Declares text ∨ ∃ v ∈ s.words.take i, v.quoted = true ∧ v.lexeme.text = text

/-- No text is both quoted and bare, unless it is declared. -/
def Unambiguous (s : Sheet) : Prop :=
  ∀ v ∈ s.words, ∀ w ∈ s.words, v.quoted = true → w.quoted = false →
    v.lexeme.text = w.lexeme.text → s.Declares w.lexeme.text

/-- The sheets declare the same texts and have the same words in any order. -/
structure Rearranges (s s' : Sheet) : Prop where
  declares_iff : ∀ text, s.Declares text ↔ s'.Declares text
  perm : (s.words.map fun w => (w.lexeme.text, w.quoted)).Perm
    (s'.words.map fun w => (w.lexeme.text, w.quoted))

theorem Rearranges.exists_word (h : s.Rearranges s') (hw : w ∈ s'.words) :
    ∃ v ∈ s.words, v.lexeme.text = w.lexeme.text ∧ v.quoted = w.quoted := by
  have hmem := h.perm.mem_iff.2 (List.mem_map_of_mem (f := fun w => (w.lexeme.text, w.quoted)) hw)
  obtain ⟨v, hv, heq⟩ := List.mem_map.1 hmem
  exact ⟨v, hv, congrArg Prod.fst heq, congrArg Prod.snd heq⟩

theorem Unambiguous.rearrange (hs : s.Unambiguous) (h : s.Rearranges s') : s'.Unambiguous := by
  intro v' hv' w' hw' hquoted hbare heq
  obtain ⟨v, hv, hvtext, hvquoted⟩ := h.exists_word hv'
  obtain ⟨w, hw, hwtext, hwquoted⟩ := h.exists_word hw'
  have hdeclares := hs v hv w hw (hvquoted.trans hquoted) (hwquoted.trans hbare)
    (hvtext.trans (heq.trans hwtext.symm))
  rw [← hwtext]
  exact (h.declares_iff _).1 hdeclares

/-- Words at different places are different words. -/
theorem index_unique (h : s.words.Pairwise fun v w => v.place < w.place) {j : Nat}
    (hv : s.words[i]? = some v) (hw : s.words[j]? = some w) (heq : v.lexeme = w.lexeme) :
    i = j := by
  obtain ⟨hi, rfl⟩ := List.getElem?_eq_some_iff.1 hv
  obtain ⟨hj, rfl⟩ := List.getElem?_eq_some_iff.1 hw
  have hplace : s.words[i].place = s.words[j].place := congrArg (·.span.start) heq
  have hlt := List.pairwise_iff_getElem.1 h
  rcases Nat.lt_trichotomy i j with hij | hij | hij
  · exact absurd hplace (Nat.ne_of_lt (hlt i j hi hj hij))
  · exact hij
  · exact absurd hplace.symm (Nat.ne_of_lt (hlt j i hj hi hij))

end Sheet

namespace Written

variable {s : Sheet} {g : Written} {w : Word} {tokens : List Lexeme} {text : String} {i : Nat}

theorem any_text_iff : tokens.any (·.text == text) = true ↔ text ∈ tokens.map (·.text) := by simp

theorem mem_texts_addToken {name : Lexeme} : text ∈ (addToken tokens name).map (·.text) ↔
    text ∈ tokens.map (·.text) ∨ name.text = text := by
  rw [addToken]
  split
  · next hknown =>
    refine (or_iff_left_of_imp ?_).symm
    rintro rfl
    exact any_text_iff.1 hknown
  · rw [List.map_append, List.mem_append, List.map_singleton, List.mem_singleton,
      eq_comm (a := text)]

theorem mem_texts_foldl_addToken (names : List Lexeme) :
    text ∈ (names.foldl addToken tokens).map (·.text) ↔
      text ∈ tokens.map (·.text) ∨ text ∈ names.map (·.text) := by
  induction names generalizing tokens with
  | nil => simp
  | cons name names ih =>
    rw [List.foldl_cons, ih, mem_texts_addToken, List.map_cons, List.mem_cons, or_assoc,
      eq_comm (a := text)]

theorem mem_texts_symbolOf : text ∈ (symbolOf w tokens).2.map (·.text) ↔
    text ∈ tokens.map (·.text) ∨ w.quoted = true ∧ w.lexeme.text = text := by
  rw [symbolOf]
  split
  · next hquoted => rw [mem_texts_addToken, hquoted, and_iff_right rfl]
  · next hbare =>
    have hnone : ¬ (w.quoted = true ∧ w.lexeme.text = text) := fun h => hbare h.1
    split
    · exact (or_iff_left hnone).symm
    · exact (or_iff_left hnone).symm

theorem mem_texts_mapState (words : List Word) :
    text ∈ (mapState symbolOf words tokens).2.map (·.text) ↔
      text ∈ tokens.map (·.text) ∨ ∃ v ∈ words, v.quoted = true ∧ v.lexeme.text = text := by
  induction words generalizing tokens with
  | nil => simp
  | cons w words ih =>
    rw [mapState_cons, ih, mem_texts_symbolOf, List.exists_mem_cons_iff, or_assoc]

theorem symbolOf_eq_token (h : w.quoted = true ∨ w.lexeme.text ∈ tokens.map (·.text)) :
    (symbolOf w tokens).1 = .token w.lexeme := by
  rw [symbolOf]
  split
  · rfl
  · next hbare => rw [if_pos (any_text_iff.2 (h.resolve_left hbare))]

theorem symbolOf_eq_rule (hbare : w.quoted = false)
    (h : w.lexeme.text ∉ tokens.map (·.text)) : (symbolOf w tokens).1 = .rule w.lexeme := by
  rw [symbolOf, if_neg (Bool.eq_false_iff.1 hbare), if_neg (mt any_text_iff.1 h)]

theorem mapState_words_ruleOf (d : Definition) (tokens : List Lexeme) :
    mapState symbolOf d.words tokens =
      ((ruleOf d tokens).1.bodies.flatten, (ruleOf d tokens).2) := by
  have hwords : d.words = (d.alternatives.filter (!·.words.isEmpty)).flatMap (·.words) := by
    rw [Definition.words]
    induction d.alternatives with
    | nil => rfl
    | cons a alternatives ih =>
      rw [List.flatMap_cons, ih]
      cases hempty : a.words.isEmpty with
      | true => rw [List.filter_cons_of_neg (by simp [hempty]), List.isEmpty_iff.1 hempty,
          List.nil_append]
      | false => rw [List.filter_cons_of_pos (by simp [hempty]), List.flatMap_cons]
  rw [hwords, mapState_flatMap bodyOf id fun _ _ => rfl, List.flatMap_id]
  rfl

def declaredTokens (s : Sheet) : List Lexeme := s.declared.foldl addToken []

theorem mapState_words (s : Sheet) : mapState symbolOf s.words (declaredTokens s) =
    ((mapState ruleOf s.definitions (declaredTokens s)).1.flatMap (·.bodies.flatten),
      (mapState ruleOf s.definitions (declaredTokens s)).2) :=
  mapState_flatMap ruleOf (·.bodies.flatten) mapState_words_ruleOf _ _

def symbols (g : Written) : List Symbol := g.rules.flatMap (·.bodies.flatten)

/-- Merging moves productions, but their symbols are what the words became. -/
theorem mem_symbols_ofSheet {x : Symbol} : x ∈ (ofSheet s).symbols ↔
    x ∈ (mapState symbolOf s.words (declaredTokens s)).1 := by
  have hrules : (ofSheet s).rules =
      merge (mapState ruleOf s.definitions (declaredTokens s)).1 := rfl
  rw [symbols, hrules, mapState_words]
  simp only [List.mem_flatMap, List.mem_flatten]
  constructor
  · rintro ⟨r, hr, body, hbody, hx⟩
    obtain ⟨r', hr', hbody'⟩ := exists_of_mem_merge hr hbody
    exact ⟨r', hr', body, hbody', hx⟩
  · rintro ⟨r, hr, body, hbody, hx⟩
    obtain ⟨r', hr', hbody'⟩ := exists_mem_merge hr hbody
    exact ⟨r', hr', body, hbody', hx⟩

theorem mem_texts_at :
    text ∈ (mapState symbolOf (s.words.take i) (declaredTokens s)).2.map (·.text) ↔
      s.KnowsAt i text := by
  rw [mem_texts_mapState, declaredTokens, mem_texts_foldl_addToken]
  simp only [List.map_nil, List.not_mem_nil, false_or]
  rfl

theorem exists_word_of_mem_symbols {x : Symbol} (hx : x ∈ (ofSheet s).symbols) :
    ∃ i w, s.words[i]? = some w ∧
      (x = .token w.lexeme ∧ (w.quoted = true ∨ s.KnowsAt i w.lexeme.text) ∨
        x = .rule w.lexeme ∧ w.quoted = false ∧ ¬ s.KnowsAt i w.lexeme.text) := by
  obtain ⟨i, hi⟩ := List.mem_iff_getElem?.1 (mem_symbols_ofSheet.1 hx)
  rw [getElem?_mapState, Option.map_eq_some_iff] at hi
  obtain ⟨w, hw, rfl⟩ := hi
  refine ⟨i, w, hw, ?_⟩
  by_cases htoken : w.quoted = true ∨ s.KnowsAt i w.lexeme.text
  · exact .inl ⟨symbolOf_eq_token (htoken.imp_right mem_texts_at.2), htoken⟩
  · obtain ⟨hbare, hunknown⟩ := not_or.1 htoken
    have hbare := Bool.eq_false_iff.2 hbare
    exact .inr ⟨symbolOf_eq_rule hbare (mt mem_texts_at.1 hunknown), hbare, hunknown⟩

theorem nodup_texts_addToken {name : Lexeme} (h : (tokens.map (·.text)).Nodup) :
    ((addToken tokens name).map (·.text)).Nodup := by
  rw [addToken]
  split
  · exact h
  · next hnew =>
    rw [List.map_append, List.map_singleton, ← List.concat_eq_append]
    exact h.concat (mt any_text_iff.2 hnew)

theorem nodup_texts_symbolOf (h : (tokens.map (·.text)).Nodup) :
    ((symbolOf w tokens).2.map (·.text)).Nodup := by
  rw [symbolOf]
  split
  · exact nodup_texts_addToken h
  · split
    · exact h
    · exact h

theorem tokens_ofSheet (s : Sheet) :
    (ofSheet s).tokens = (mapState symbolOf s.words (declaredTokens s)).2 := by
  rw [mapState_words]
  rfl

theorem nodup_texts_ofSheet (s : Sheet) : ((ofSheet s).tokens.map (·.text)).Nodup := by
  have hdeclared : ((declaredTokens s).map (·.text)).Nodup := by
    refine List.foldlRecOn (motive := fun tokens : List Lexeme => (tokens.map (·.text)).Nodup)
      s.declared addToken ?_ fun _ h _ _ => nodup_texts_addToken h
    exact List.nodup_nil
  rw [tokens_ofSheet]
  exact mapState_invariant symbolOf (P := fun tokens => (tokens.map (·.text)).Nodup)
    (fun _ _ h => nodup_texts_symbolOf h) s.words _ hdeclared

theorem mem_texts_ofSheet {name : Lexeme} (h : .token name ∈ (ofSheet s).symbols) :
    name.text ∈ (ofSheet s).tokens.map (·.text) := by
  obtain ⟨i, w, hw, ⟨heq, hknown⟩ | ⟨heq, -⟩⟩ := exists_word_of_mem_symbols h
  · obtain rfl := Symbol.token.inj heq
    rw [tokens_ofSheet, mem_texts_mapState]
    rcases hknown with hquoted | hknown
    · exact .inr ⟨w, List.mem_of_getElem? hw, hquoted, rfl⟩
    · rcases (mem_texts_mapState _).1 (mem_texts_at.2 hknown) with hdeclared | ⟨v, hv, hquoted⟩
      · exact .inl hdeclared
      · exact .inr ⟨v, List.mem_of_mem_take hv, hquoted⟩
  · cases heq

theorem mem_symbols_of_word (hw : s.words[i]? = some w) :
    (symbolOf w (mapState symbolOf (s.words.take i) (declaredTokens s)).2).1 ∈
      (ofSheet s).symbols := by
  refine mem_symbols_ofSheet.2 (List.mem_iff_getElem?.2 ⟨i, ?_⟩)
  rw [getElem?_mapState, hw, Option.map_some]

section

variable (hascending : s.words.Pairwise fun v w => v.place < w.place)

include hascending

theorem mem_symbols_of_bare (hw : s.words[i]? = some w) (hbare : w.quoted = false) :
    (.token w.lexeme ∈ (ofSheet s).symbols ↔ s.KnowsAt i w.lexeme.text) ∧
      (.rule w.lexeme ∈ (ofSheet s).symbols ↔ ¬ s.KnowsAt i w.lexeme.text) := by
  constructor
  · constructor
    · intro hmem
      obtain ⟨j, v, hv, ⟨heq, hknown⟩ | ⟨heq, -⟩⟩ := exists_word_of_mem_symbols hmem
      · obtain rfl := Sheet.index_unique hascending hw hv (Symbol.token.inj heq)
        obtain rfl := Option.some.inj (hw.symm.trans hv)
        exact hknown.resolve_left (by simp [hbare])
      · cases heq
    · intro hknown
      rw [← symbolOf_eq_token (.inr (mem_texts_at.2 hknown))]
      exact mem_symbols_of_word hw
  · constructor
    · intro hmem
      obtain ⟨j, v, hv, ⟨heq, -⟩ | ⟨heq, -, hunknown⟩⟩ := exists_word_of_mem_symbols hmem
      · cases heq
      · obtain rfl := Sheet.index_unique hascending hw hv (Symbol.rule.inj heq)
        obtain rfl := Option.some.inj (hw.symm.trans hv)
        exact hunknown
    · intro hunknown
      rw [← symbolOf_eq_rule hbare (mt mem_texts_at.1 hunknown)]
      exact mem_symbols_of_word hw

/-- Declared texts tell the tokens among the bare words, if every text that is quoted before a bare
word is declared. -/
theorem declared_iff_token : (∀ w ∈ s.words, w.quoted = false →
      (.token w.lexeme ∈ (ofSheet s).symbols ↔ s.Declares w.lexeme.text)) ↔
    ∀ i w, s.words[i]? = some w → w.quoted = false →
      (∃ v ∈ s.words.take i, v.quoted = true ∧ v.lexeme.text = w.lexeme.text) →
        s.Declares w.lexeme.text := by
  constructor
  · intro hmeets i w hw hbare hquoted
    apply (hmeets w (List.mem_of_getElem? hw) hbare).1
    exact (mem_symbols_of_bare hascending hw hbare).1.2 (.inr hquoted)
  · intro hdeclared w hmem hbare
    obtain ⟨i, hw⟩ := List.mem_iff_getElem?.1 hmem
    rw [(mem_symbols_of_bare hascending hw hbare).1]
    constructor
    · rintro (hknown | hquoted)
      · exact hknown
      · exact hdeclared i w hw hbare hquoted
    · exact .inl

theorem declared_iff_token_of_unambiguous (h : s.Unambiguous) : ∀ w ∈ s.words, w.quoted = false →
    (.token w.lexeme ∈ (ofSheet s).symbols ↔ s.Declares w.lexeme.text) := by
  refine (declared_iff_token hascending).2 fun i w hw hbare ⟨v, hv, hquoted, heq⟩ => ?_
  exact h v (List.mem_of_mem_take hv) w (List.mem_of_getElem? hw) hquoted hbare heq

end

theorem ascending_words_of_read {text : String} (h : read text = .ok g) :
    (Sheet.read text).words.Pairwise fun v w => v.place < w.place := by
  obtain ⟨-, herrors, -⟩ := ofSheet_of_read h
  have hstopped := (List.append_eq_nil_iff.1 herrors).2
  exact Sheet.ascending_words (by simpa using hstopped)

/-- A bare word is a token exactly if its text is declared, or quoted before it. So declared texts
tell the tokens exactly if every text that is quoted before a bare word is declared, and they tell
them in any order of the words if that holds of every text that is both quoted and bare. -/
theorem bareWord_isToken_iff {text : String} {g : Written} (h : read text = .ok g) :
    (∀ x ∈ g.symbols, ∃ w ∈ (Sheet.read text).words, x = .token w.lexeme ∨ x = .rule w.lexeme) ∧
    (∀ i w, (Sheet.read text).words[i]? = some w → w.quoted = false →
      (.token w.lexeme ∈ g.symbols ↔ (Sheet.read text).KnowsAt i w.lexeme.text) ∧
        (.rule w.lexeme ∈ g.symbols ↔ ¬ (Sheet.read text).KnowsAt i w.lexeme.text)) ∧
    ((∀ w ∈ (Sheet.read text).words, w.quoted = false →
        (.token w.lexeme ∈ g.symbols ↔ (Sheet.read text).Declares w.lexeme.text)) ↔
      ∀ i w, (Sheet.read text).words[i]? = some w → w.quoted = false →
        (∃ v ∈ (Sheet.read text).words.take i, v.quoted = true ∧ v.lexeme.text = w.lexeme.text) →
          (Sheet.read text).Declares w.lexeme.text) ∧
    ((Sheet.read text).Unambiguous → ∀ text' g', read text' = .ok g' →
      (Sheet.read text).Rearranges (Sheet.read text') →
        ∀ w ∈ (Sheet.read text').words, w.quoted = false →
          (.token w.lexeme ∈ g'.symbols ↔ (Sheet.read text).Declares w.lexeme.text)) := by
  have hascending := ascending_words_of_read h
  obtain ⟨rfl, -, -⟩ := ofSheet_of_read h
  refine ⟨fun x hx => ?_, fun i w hw => mem_symbols_of_bare hascending hw,
    declared_iff_token hascending, fun hunambiguous text' g' h' hrearranges w hw hbare => ?_⟩
  · obtain ⟨i, w, hw, ⟨heq, -⟩ | ⟨heq, -⟩⟩ := exists_word_of_mem_symbols hx
    · exact ⟨w, List.mem_of_getElem? hw, .inl heq⟩
    · exact ⟨w, List.mem_of_getElem? hw, .inr heq⟩
  · have hascending' := ascending_words_of_read h'
    obtain ⟨rfl, -, -⟩ := ofSheet_of_read h'
    have hiff := declared_iff_token_of_unambiguous hascending'
      (hunambiguous.rearrange hrearranges) w hw hbare
    exact hiff.trans (hrearranges.declares_iff _).symm

def bareFirst : String := "%%\nS: a | 'a';\na: 'b';"

def quotedFirst : String := "%%\nS: 'a' | a;\na: 'b';"

theorem read_bareFirst : read bareFirst = .ok
    { start := some (letterAt "S" 3)
      tokens := [letterAt "a" 11, letterAt "b" 19]
      rules := [⟨letterAt "S" 3, [[.rule (letterAt "a" 6)], [.token (letterAt "a" 11)]]⟩,
        ⟨letterAt "a" 15, [[.token (letterAt "b" 19)]]⟩] } := by
  simp only [read, ofSheet, merge, distinct_eq_foldl]
  decide +kernel

theorem read_quotedFirst : read quotedFirst = .ok
    { start := some (letterAt "S" 3)
      tokens := [letterAt "a" 7, letterAt "b" 19]
      rules := [⟨letterAt "S" 3, [[.token (letterAt "a" 7)], [.token (letterAt "a" 12)]]⟩,
        ⟨letterAt "a" 15, [[.token (letterAt "b" 19)]]⟩] } := by
  simp only [read, ofSheet, merge, distinct_eq_foldl]
  decide +kernel

theorem words_bareFirst : (Sheet.read bareFirst).words =
    [⟨letterAt "a" 6, false⟩, ⟨letterAt "a" 11, true⟩, ⟨letterAt "b" 19, true⟩] := by
  decide +kernel

theorem words_quotedFirst : (Sheet.read quotedFirst).words =
    [⟨letterAt "a" 7, true⟩, ⟨letterAt "a" 12, false⟩, ⟨letterAt "b" 19, true⟩] := by
  decide +kernel

theorem declared_bareFirst : (Sheet.read bareFirst).declared = [] := by decide +kernel

theorem declared_quotedFirst : (Sheet.read quotedFirst).declared = [] := by decide +kernel

theorem bareWord_isToken_iff_bareFirst : ∃ g, read bareFirst = .ok g ∧
    (Sheet.read bareFirst).words[0]? = some ⟨letterAt "a" 6, false⟩ ∧
    .rule (letterAt "a" 6) ∈ g.symbols := by
  have hword : (Sheet.read bareFirst).words[0]? = some ⟨letterAt "a" 6, false⟩ := by
    rw [words_bareFirst]
    rfl
  obtain ⟨-, hclass, -⟩ := bareWord_isToken_iff read_bareFirst
  refine ⟨_, read_bareFirst, hword, (hclass 0 _ hword rfl).2.2 ?_⟩
  simp [Sheet.KnowsAt, Sheet.Declares, declared_bareFirst]

/-- Behind the quoted word the bare word is a token, although its text is not declared; with the
alternatives the other way round it is a rule. -/
theorem quoted_word_makes_token : (Sheet.read bareFirst).Rearranges (Sheet.read quotedFirst) ∧
    ¬ (Sheet.read quotedFirst).Declares "a" ∧
    (∃ g, read quotedFirst = .ok g ∧ ⟨letterAt "a" 12, false⟩ ∈ (Sheet.read quotedFirst).words ∧
      .token (letterAt "a" 12) ∈ g.symbols) ∧
    ∃ g, read bareFirst = .ok g ∧ ⟨letterAt "a" 6, false⟩ ∈ (Sheet.read bareFirst).words ∧
      .rule (letterAt "a" 6) ∈ g.symbols := by
  refine ⟨⟨fun text => ?_, ?_⟩, ?_, ⟨_, read_quotedFirst, ?_, by decide⟩,
    _, read_bareFirst, ?_, by decide⟩
  · rw [Sheet.Declares, Sheet.Declares, declared_bareFirst, declared_quotedFirst]
  · rw [words_bareFirst, words_quotedFirst]
    decide
  · rw [Sheet.Declares, declared_quotedFirst]
    exact List.not_mem_nil
  · rw [words_quotedFirst]
    decide
  · rw [words_bareFirst]
    decide

end Written

end GrammarRepair
