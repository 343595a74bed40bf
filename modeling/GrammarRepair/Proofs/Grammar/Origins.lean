import GrammarRepair.Proofs.Grammar.Kept
import GrammarRepair.Proofs.Grammar.OfSource
import GrammarRepair.Proofs.Source.Bytes

/-!
Where the names of a grammar come from. A token keeps the span of its first occurrence, and a rule that
was written the span of its first definition; merging, fresh rules and pruning carry spans along with
the names they belong to. Main statement: at the span of a name stands the name, and so it does at the
span of an error that is about a name.
-/

namespace GrammarRepair

open Written

def Span.Shows (text : String) (s : Span) (name : String) : Prop :=
  Bytes.slice text s.start s.stop = .ok name.toList

/-- From one offset to the other stands the word, whose span leaves out its quotes. -/
def Word.StandsBetween (text : String) (w : Word) (i j : Nat) : Prop :=
  if w.quoted then
    w.lexeme.span.start = i + 1 ∧ w.lexeme.span.stop + 1 = j ∧
      ∃ q, Source.isQuote q = true ∧ Bytes.slice text i j = .ok (q :: (w.lexeme.text.toList ++ [q]))
  else w.lexeme.span.start = i ∧ w.lexeme.span.stop = j

variable {text : String}

theorem Lexeme.On.shows {l : Lexeme} (h : l.On text) : l.span.Shows text l.text := by
  obtain ⟨c, n, hc, rfl⟩ := h
  have hslice := Bytes.slice_offset hc n
  rw [← String.toList_ofList (l := c.ahead.take n)] at hslice
  exact hslice

theorem standsBetween_of_readWord {c d : Cursor} {w : Word} (hc : c.On text)
    (h : Source.readWord c = .ok (w, d)) : w.StandsBetween text c.offset d.offset := by
  unfold Source.readWord at h
  split at h
  · cases h
  · next q cs hahead =>
    split at h
    · next hquote =>
      split at h
      · cases h
      · next n hn =>
        cases h
        obtain ⟨after, hafter⟩ := Bytes.exists_of_quotedLength? hn
        have hslice := Bytes.slice_offset hc (n + 2)
        have htake : c.ahead.take (n + 2) = q :: (cs.take n ++ [q]) := by
          rw [hahead, List.take_succ_cons, List.take_add, hafter]
          rfl
        have htext : ((c.skip 1).lexeme n).text.toList = cs.take n := by
          show (String.ofList ((c.skip 1).ahead.take n)).toList = cs.take n
          rw [String.toList_ofList, Cursor.ahead_skip, hahead]
          rfl
        rw [htake, ← htext] at hslice
        exact ⟨Bytes.offset_skip_quote hahead hquote, Bytes.offset_skip_quoted hahead hquote hn,
          q, hquote, hslice⟩
    · split at h
      · cases h
      · cases h
        exact ⟨rfl, rfl⟩

theorem Word.On.exists_readWord {w : Word} (h : w.On text) :
    ∃ i j, Bytes.readWord text i = .ok (.ok (w, j)) ∧ w.StandsBetween text i j := by
  obtain ⟨c, d, hc, hw⟩ := h
  have hread := Bytes.readWord_offset hc
  rw [hw] at hread
  exact ⟨c.offset, d.offset, hread, standsBetween_of_readWord hc hw⟩

/-- The piece is one of those in question, and of those with its text none stands before it. -/
structure Lexeme.IsFirst (P : Lexeme → Prop) (x : Lexeme) : Prop where
  mem : P x
  le : ∀ y, P y → y.text = x.text → x.place ≤ y.place

/-- In ascending order the first piece with a text is the one that is found. -/
theorem isFirst_of_find? {xs : List Lexeme} {x : Lexeme} {name : String}
    (hxs : (xs.map (·.place)).Pairwise (· < ·)) (hx : xs.find? (·.text == name) = some x) :
    x.IsFirst (· ∈ xs) := by
  obtain ⟨hname, before, after, rfl, hbefore⟩ := List.find?_eq_some_iff_append.1 hx
  obtain rfl : x.text = name := eq_of_beq hname
  refine ⟨by simp, fun y hy heq => ?_⟩
  rw [List.map_append, List.map_cons, List.pairwise_append] at hxs
  rcases List.mem_append.1 hy with hy | hy
  · have hother := hbefore y hy
    simp [heq] at hother
  · rcases List.mem_cons.1 hy with rfl | hy
    · exact Nat.le_refl _
    · exact Nat.le_of_lt (List.rel_of_pairwise_cons hxs.2.1 (List.mem_map_of_mem hy))

/-- Where no text comes twice, each piece is found by its text. -/
theorem find?_text_eq_some {xs : List Lexeme} (hxs : (xs.map (·.text)).Nodup) {x : Lexeme}
    (hx : x ∈ xs) : xs.find? (·.text == x.text) = some x := by
  have hsome : (xs.find? (·.text == x.text)).isSome = true :=
    List.find?_isSome.2 ⟨x, hx, by simp⟩
  obtain ⟨y, hy⟩ := Option.isSome_iff_exists.1 hsome
  have htext : y.text = x.text := by
    simpa using List.find?_some hy
  rw [hy, List.inj_on_of_nodup_map hxs (List.mem_of_find?_eq_some hy) hx htext]

namespace Sheet

variable {s : Sheet}

def HasToken (s : Sheet) (x : Lexeme) : Prop := x ∈ s.declared ∨ .token x ∈ (ofSheet s).symbols

/-- What makes tokens known: the names that are declared, then the words in quotes. -/
def tokenPlaces (s : Sheet) : List Lexeme :=
  s.declared ++ (s.words.filter (·.quoted)).map (·.lexeme)

theorem ascending_tokenPlaces (h : s.places.Pairwise (· < ·)) :
    (s.tokenPlaces.map (·.place)).Pairwise (· < ·) := by
  have hwords : ((s.words.filter (·.quoted)).map (·.place)).Sublist
      (s.definitions.flatMap (·.places)) :=
    (List.filter_sublist.map _).trans s.words_sublist
  refine h.sublist ?_
  rw [tokenPlaces, List.map_append, List.map_map]
  exact s.declared_sublist.append hwords

theorem ascending_names (h : s.places.Pairwise (· < ·)) :
    ((s.definitions.map (·.name)).map (·.place)).Pairwise (· < ·) := by
  refine h.sublist ?_
  rw [List.map_map]
  exact s.names_sublist.trans (List.sublist_append_right _ _)

end Sheet

namespace Written

variable {s : Sheet}

theorem find?_addToken (tokens : List Lexeme) (name : Lexeme) (n : String) :
    (addToken tokens name).find? (·.text == n) = (tokens ++ [name]).find? (·.text == n) := by
  rw [addToken]
  split
  · next hknown =>
    rw [List.find?_append]
    by_cases hn : name.text = n
    · obtain ⟨x, hx, htext⟩ := List.mem_map.1 (any_text_iff.1 hknown)
      have hsome : (tokens.find? (·.text == n)).isSome = true :=
        List.find?_isSome.2 ⟨x, hx, by simp [htext, hn]⟩
      obtain ⟨y, hy⟩ := Option.isSome_iff_exists.1 hsome
      rw [hy, Option.some_or]
    · have hnone : [name].find? (·.text == n) = none := by simp [hn]
      rw [hnone, Option.or_none]
  · rfl

/-- What is added later is found only if the text is not there yet. -/
theorem find?_foldl_addToken (names tokens : List Lexeme) (n : String) :
    (names.foldl addToken tokens).find? (·.text == n) = (tokens ++ names).find? (·.text == n) := by
  induction names generalizing tokens with
  | nil => rw [List.foldl_nil, List.append_nil]
  | cons name names ih =>
    rw [List.foldl_cons, ih, List.find?_append, find?_addToken, ← List.find?_append,
      List.append_assoc, List.singleton_append]

theorem foldl_addToken_quoted (words : List Word) (tokens : List Lexeme) :
    (mapState symbolOf words tokens).2 =
      ((words.filter (·.quoted)).map (·.lexeme)).foldl addToken tokens := by
  induction words generalizing tokens with
  | nil => rfl
  | cons w words ih =>
    rw [mapState_cons, ih]
    cases hquoted : w.quoted with
    | true =>
      have hstate : (symbolOf w tokens).2 = addToken tokens w.lexeme := by
        rw [symbolOf, if_pos hquoted]
      rw [hstate, List.filter_cons_of_pos hquoted, List.map_cons, List.foldl_cons]
    | false =>
      have hstate : (symbolOf w tokens).2 = tokens := by
        rw [symbolOf, if_neg (by simp [hquoted])]
        split <;> rfl
      rw [hstate, List.filter_cons_of_neg (by simp [hquoted])]

theorem tokens_eq_foldl (s : Sheet) : (ofSheet s).tokens = s.tokenPlaces.foldl addToken [] := by
  rw [tokens_ofSheet, foldl_addToken_quoted, declaredTokens, Sheet.tokenPlaces, List.foldl_append]

theorem find?_tokenPlaces {x : Lexeme} (hx : x ∈ (ofSheet s).tokens) :
    s.tokenPlaces.find? (·.text == x.text) = some x := by
  have hfind := find?_text_eq_some (nodup_texts_ofSheet s) hx
  rwa [tokens_eq_foldl, find?_foldl_addToken, List.nil_append] at hfind

theorem hasToken_of_mem_tokenPlaces {x : Lexeme} (hx : x ∈ s.tokenPlaces) : s.HasToken x := by
  rcases List.mem_append.1 hx with hx | hx
  · exact .inl hx
  · obtain ⟨w, hw, rfl⟩ := List.mem_map.1 hx
    obtain ⟨hw, hquoted⟩ := List.mem_filter.1 hw
    obtain ⟨i, hi⟩ := List.mem_iff_getElem?.1 hw
    have hmem := mem_symbols_of_word hi
    rw [symbolOf_eq_token (.inl hquoted)] at hmem
    exact .inr hmem

/-- Wherever a token stands, its text was made known there or before. -/
theorem exists_tokenPlace (hplaces : s.places.Pairwise (· < ·)) {y : Lexeme} (hy : s.HasToken y) :
    ∃ x ∈ s.tokenPlaces, x.text = y.text ∧ x.place ≤ y.place := by
  rcases hy with hy | hy
  · exact ⟨y, List.mem_append_left _ hy, rfl, Nat.le_refl _⟩
  · obtain ⟨i, w, hw, ⟨heq, hknown⟩ | ⟨heq, -⟩⟩ := exists_word_of_mem_symbols hy
    · obtain rfl := Symbol.token.inj heq
      have hplace : w.place ∈ s.definitions.flatMap (·.places) :=
        s.words_sublist.subset (List.mem_map_of_mem (List.mem_of_getElem? hw))
      rcases hknown with hquoted | hdeclares | ⟨v, hv, hquoted, htext⟩
      · have hmem := List.mem_filter.2 ⟨List.mem_of_getElem? hw, hquoted⟩
        exact ⟨w.lexeme, List.mem_append_right _ (List.mem_map_of_mem hmem), rfl, Nat.le_refl _⟩
      · obtain ⟨x, hx, htext⟩ := List.mem_map.1 hdeclares
        have hxplace := s.declared_sublist.subset (List.mem_map_of_mem hx)
        exact ⟨x, List.mem_append_left _ hx, htext,
          Nat.le_of_lt ((List.pairwise_append.1 hplaces).2.2 _ hxplace _ hplace)⟩
      · have hwords := ((List.pairwise_append.1 hplaces).2.1.sublist s.words_sublist)
        have hlt : v.place < w.place := by
          obtain ⟨j, hj, rfl⟩ := List.mem_take_iff_getElem.1 hv
          obtain ⟨hi, rfl⟩ := List.getElem?_eq_some_iff.1 hw
          exact List.pairwise_iff_getElem.1 (List.pairwise_map.1 hwords) j i _ hi (by omega)
        have hmem := List.mem_filter.2 ⟨List.mem_of_mem_take hv, hquoted⟩
        exact ⟨v.lexeme, List.mem_append_right _ (List.mem_map_of_mem hmem), htext,
          Nat.le_of_lt hlt⟩
    · cases heq

/-- The tokens of a grammar are where they first occur. -/
theorem isFirst_token (hplaces : s.places.Pairwise (· < ·)) {x : Lexeme}
    (hx : x ∈ (ofSheet s).tokens) : x.IsFirst s.HasToken := by
  have hfirst := isFirst_of_find? (Sheet.ascending_tokenPlaces hplaces) (find?_tokenPlaces hx)
  refine ⟨hasToken_of_mem_tokenPlaces hfirst.mem, fun y hy htext => ?_⟩
  obtain ⟨z, hz, hztext, hle⟩ := exists_tokenPlace hplaces hy
  exact Nat.le_trans (hfirst.le z hz (hztext.trans htext)) hle

theorem find?_name_merge (rules : List WrittenRule) (n : String) :
    ((merge rules).map (·.name)).find? (·.text == n) =
      (rules.map (·.name)).find? (·.text == n) := by
  have hnames : ((merge rules).map (·.name)).map (·.text) =
      distinct (rules.map (·.name.text)) := by
    rw [List.map_map]
    exact names_merge rules
  by_cases hn : n ∈ distinct (rules.map (·.name.text))
  · obtain ⟨first, hfirst, rfl⟩ := exists_first hn
    have hmem : first.name ∈ (merge rules).map (·.name) :=
      List.mem_map.2 ⟨_, List.mem_filterMap.2 ⟨_, hn, congrArg (Option.map _) hfirst⟩, rfl⟩
    rw [find?_text_eq_some (hnames ▸ nodup_distinct _) hmem, List.find?_map]
    exact (congrArg (Option.map (·.name)) hfirst).symm
  · have hnone : ∀ names : List Lexeme, n ∉ names.map (·.text) →
        names.find? (·.text == n) = none := by
      intro names hnot
      refine List.find?_eq_none.2 fun x hx hbeq => hnot ?_
      exact List.mem_map.2 ⟨x, hx, eq_of_beq hbeq⟩
    rw [hnone _ (hnames ▸ hn), hnone]
    rw [List.map_map]
    exact fun hmem => hn ((mem_distinct _ _).2 hmem)

theorem names_mapState_ruleOf (definitions : List Definition) (tokens : List Lexeme) :
    (mapState ruleOf definitions tokens).1.map (·.name) = definitions.map (·.name) := by
  induction definitions generalizing tokens with
  | nil => rfl
  | cons d definitions ih => exact congrArg (d.name :: ·) (ih _)

theorem find?_name_ofSheet (s : Sheet) (n : String) :
    ((ofSheet s).rules.map (·.name)).find? (·.text == n) =
      (s.definitions.map (·.name)).find? (·.text == n) := by
  rw [← names_mapState_ruleOf s.definitions (declaredTokens s)]
  exact find?_name_merge _ n

end Written

namespace Grammar

variable {g : Grammar} {w : Width} {a t : Nat}

def tokenSpan? (g : Grammar) (t : Nat) : Option Span := g.tokenSpans.getD t none

/-- A rule has the span of the first definition of its name, and none if it was not written. -/
theorem ruleSpan?_of_number {nf : NormalForm} (h : nf.number w = .ok g) (ha : a < g.ruleCount) :
    g.ruleSpan? a = (nf.written.find? (·.text == g.ruleName a)).map (·.span) := by
  have hnames := (NormalForm.numbers_of_number h).ruleNames_eq
  have hspans : g.ruleSpans = nf.ruleSpans.toArray := (NormalForm.spans_of_number h).1
  have hlength : a < nf.rules.length := by
    rw [ruleCount, ← Array.length_toList, hnames, NormalForm.ruleNames, List.length_map] at ha
    exact ha
  have hname : g.ruleName a = nf.rules[a].1 := by
    rw [ruleName, Array.getD_eq_getD_getElem?, ← Array.getElem?_toList, hnames,
      NormalForm.ruleNames, List.getElem?_map, List.getElem?_eq_getElem hlength]
    rfl
  rw [ruleSpan?, hspans, Array.getD_eq_getD_getElem?, List.getElem?_toArray, NormalForm.ruleSpans,
    List.getElem?_map, List.getElem?_eq_getElem hlength, hname]
  rfl

theorem exists_ruleSpan?_prune (ha : a < g.prune.ruleCount) : ∃ b < g.ruleCount,
    g.prune.ruleName a = g.ruleName b ∧ g.prune.ruleSpan? a = g.ruleSpan? b := by
  have hlength : a < g.keptList.length := by
    rwa [ruleCount_prune] at ha
  refine ⟨g.keptList[a], (mem_keptList.1 (List.getElem_mem hlength)).1, ?_, ?_⟩
  · rw [ruleName, Array.getD_eq_getD_getElem?, ← Array.getElem?_toList, ruleNames_prune,
      List.getElem?_map, List.getElem?_eq_getElem hlength]
    rfl
  · rw [ruleSpan?, Array.getD_eq_getD_getElem?, ← Array.getElem?_toList, ruleSpans_prune,
      List.getElem?_map, List.getElem?_eq_getElem hlength]
    rfl

theorem exists_token_of_number {nf : NormalForm} (h : nf.number w = .ok g) (ht : t < g.tokenCount) :
    ∃ x ∈ nf.tokens, g.tokenText t = x.text ∧ g.tokenSpan? t = some x.span := by
  have hnames := (NormalForm.numbers_of_number h).tokenList_eq
  have hspans : g.tokenSpans = (nf.tokens.map fun x => some x.span).toArray :=
    (NormalForm.spans_of_number h).2
  have hlength : t < nf.tokens.length := by
    rw [tokenCount, ← Array.length_toList, ← tokenList, hnames, NormalForm.tokenNames,
      List.length_map] at ht
    exact ht
  refine ⟨nf.tokens[t], List.getElem_mem hlength, ?_, ?_⟩
  · have hname : g.tokenNames[t]? = some nf.tokens[t].text := by
      rw [← Array.getElem?_toList, ← tokenList, hnames, NormalForm.tokenNames, List.getElem?_map,
        List.getElem?_eq_getElem hlength]
      rfl
    rw [tokenText, hname]
  · rw [tokenSpan?, hspans, Array.getD_eq_getD_getElem?, List.getElem?_toArray, List.getElem?_map,
      List.getElem?_eq_getElem hlength]
    rfl

theorem ruleSpan?_ofSource (h : ofSource w text = .ok g) (ha : a < g.ruleCount) : g.ruleSpan? a =
    (((Sheet.read text).definitions.map (·.name)).find? (·.text == g.ruleName a)).map (·.span) := by
  obtain ⟨written, g', hread, hnumber, rfl⟩ := exists_number_of_ofSource h
  obtain ⟨rfl, -, -⟩ := ofSheet_of_read hread
  obtain ⟨b, hb, hname, hspan⟩ := exists_ruleSpan?_prune ha
  rw [hspan, hname, ruleSpan?_of_number hnumber hb, ← find?_name_ofSheet]
  rfl

theorem exists_token_ofSource (h : ofSource w text = .ok g) (ht : t < g.tokenCount) :
    ∃ x ∈ (Written.ofSheet (Sheet.read text)).tokens,
      g.tokenText t = x.text ∧ g.tokenSpan? t = some x.span := by
  obtain ⟨written, g', hread, hnumber, rfl⟩ := exists_number_of_ofSource h
  obtain ⟨rfl, -, -⟩ := ofSheet_of_read hread
  rw [tokenCount, tokenNames_prune] at ht
  rw [tokenText, tokenSpan?, tokenNames_prune, tokenSpans_prune]
  exact exists_token_of_number hnumber ht

end Grammar

section

variable {w : Width} {g : Grammar} {a t : Nat}

theorem ascending_places_of_ofSource (h : Grammar.ofSource w text = .ok g) :
    (Sheet.read text).places.Pairwise (· < ·) := by
  obtain ⟨written, -, hread, -, -⟩ := Grammar.exists_number_of_ofSource h
  obtain ⟨-, herrors, -⟩ := ofSheet_of_read hread
  have hstopped := (List.append_eq_nil_iff.1 herrors).2
  exact Sheet.ascending_places (by simpa using hstopped)

theorem ruleSpan?_shows (h : Grammar.ofSource w text = .ok g) (ha : a < g.ruleCount) :
    ((g.ruleSpan? a).isSome = true ↔
      ∃ d ∈ (Sheet.read text).definitions, d.name.text = g.ruleName a) ∧
    ∀ s, g.ruleSpan? a = some s → s.Shows text (g.ruleName a) ∧
      Lexeme.IsFirst (· ∈ (Sheet.read text).definitions.map (·.name)) ⟨g.ruleName a, s⟩ := by
  have hspan := Grammar.ruleSpan?_ofSource h ha
  constructor
  · rw [hspan, Option.isSome_map, List.find?_isSome]
    simp
  · intro s hs
    obtain ⟨x, hx, rfl⟩ := Option.map_eq_some_iff.1 (hspan.symm.trans hs)
    have hname : x.text = g.ruleName a := by
      simpa using List.find?_some hx
    obtain ⟨d, hd, hdx⟩ := List.mem_map.1 (List.mem_of_find?_eq_some hx)
    have hon : x.On text := hdx ▸ ((Sheet.fits_read text).definitions d hd).name
    rw [← hname]
    exact ⟨hon.shows,
      isFirst_of_find? (Sheet.ascending_names (ascending_places_of_ofSource h)) hx⟩

theorem exists_word_of_mem_tokenPlaces {x : Lexeme} (hx : x ∈ (Sheet.read text).tokenPlaces) :
    ∃ v : Word, v.On text ∧ v.lexeme = x := by
  rcases List.mem_append.1 hx with hx | hx
  · exact (Sheet.fits_read text).declared x hx
  · obtain ⟨v, hv, rfl⟩ := List.mem_map.1 hx
    exact ⟨v, (Sheet.fits_read text).words v (List.mem_filter.1 hv).1, rfl⟩

theorem exists_tokenSpan?_shows (h : Grammar.ofSource w text = .ok g) (ht : t < g.tokenCount) :
    ∃ s, g.tokenSpan? t = some s ∧ s.Shows text (g.tokenText t) ∧
      Lexeme.IsFirst (Sheet.read text).HasToken ⟨g.tokenText t, s⟩ ∧
      ∃ (i j : Nat) (quoted : Bool),
        Bytes.readWord text i = .ok (.ok (⟨⟨g.tokenText t, s⟩, quoted⟩, j)) ∧
        (⟨⟨g.tokenText t, s⟩, quoted⟩ : Word).StandsBetween text i j := by
  obtain ⟨x, hx, hname, hspan⟩ := Grammar.exists_token_ofSource h ht
  obtain ⟨v, hv, rfl⟩ := exists_word_of_mem_tokenPlaces
    (List.mem_of_find?_eq_some (find?_tokenPlaces hx))
  obtain ⟨i, j, hread, hstands⟩ := hv.exists_readWord
  rw [hname]
  exact ⟨_, hspan, hv.lexeme.shows, isFirst_token (ascending_places_of_ofSource h) hx,
    i, j, v.quoted, hread, hstands⟩

end

/-- Spans belong to their names. A rule has a span exactly if it was written, and there stands its name
where it is first defined; at the span of each token stands its name where it first occurs, inside the
quotes if it is in quotes. At the span of an error that is about a name stands the name. -/
theorem names_stand_at_spans (w : Width) (text : String) :
    (∀ g, Grammar.ofSource w text = .ok g →
      (∀ a < g.ruleCount,
        ((g.ruleSpan? a).isSome = true ↔
          ∃ d ∈ (Sheet.read text).definitions, d.name.text = g.ruleName a) ∧
        ∀ s, g.ruleSpan? a = some s → s.Shows text (g.ruleName a) ∧
          Lexeme.IsFirst (· ∈ (Sheet.read text).definitions.map (·.name)) ⟨g.ruleName a, s⟩) ∧
      ∀ t < g.tokenCount, ∃ s, g.tokenSpan? t = some s ∧ s.Shows text (g.tokenText t) ∧
        Lexeme.IsFirst (Sheet.read text).HasToken ⟨g.tokenText t, s⟩ ∧
        ∃ (i j : Nat) (quoted : Bool),
          Bytes.readWord text i = .ok (.ok (⟨⟨g.tokenText t, s⟩, quoted⟩, j)) ∧
          (⟨⟨g.tokenText t, s⟩, quoted⟩ : Word).StandsBetween text i j) ∧
    ∀ errors, Grammar.ofSource w text = .error (.rejected errors) → ∀ e ∈ errors, ∀ name,
      e.kind = .unknownRule name ∨ e.kind = .invalidStartRule name → e.span.Shows text name := by
  refine ⟨fun g h => ⟨fun a ha => ruleSpan?_shows h ha, fun t ht => exists_tokenSpan?_shows h ht⟩,
    fun errors h e he name hkind => ?_⟩
  have hplaced := placed_of_read (read_of_rejected h) e he
  have hnamed : e.kind.named? = some name := by
    rcases hkind with hkind | hkind
    · rw [hkind]
      rfl
    · rw [hkind]
      rfl
  exact (hplaced.named name hnamed).shows

/-- A start rule that is not defined, and a word that is neither rule nor token. -/
def strayNames : String := "%start T\n%%\nS: x;"

theorem ofSource_strayNames : Grammar.ofSource .w32 strayNames = .error (.rejected
    [⟨.invalidStartRule "T", 7, 8, by decide⟩, ⟨.unknownRule "x", 15, 16, by decide⟩]) := by
  have hread : Written.read strayNames = .error
      [⟨.invalidStartRule "T", 7, 8, by decide⟩, ⟨.unknownRule "x", 15, 16, by decide⟩] := by
    simp only [Written.read, Written.ofSheet, Written.merge, distinct_eq_foldl]
    decide +kernel
  rw [Grammar.ofSource, hread]

/-- The first token of a source and its start rule, and both stray names. -/
theorem names_stand_at_spans_strayNames :
    (∃ g, Grammar.ofSource .w32 nestedText = .ok g ∧
      ((g.ruleSpan? g.start).isSome = true ↔
        ∃ d ∈ (Sheet.read nestedText).definitions, d.name.text = g.ruleName g.start) ∧
      ∃ s, g.tokenSpan? 0 = some s ∧ s.Shows nestedText "a") ∧
    (⟨7, 8, by decide⟩ : Span).Shows strayNames "T" ∧
      (⟨15, 16, by decide⟩ : Span).Shows strayNames "x" := by
  constructor
  · obtain ⟨g, hg⟩ := exists_ofSource_nestedText
    obtain ⟨hrules, htokens⟩ := (names_stand_at_spans .w32 nestedText).1 g hg
    obtain ⟨written, g', hread, hnumbers, rfl⟩ := Grammar.exists_of_ofSource hg
    obtain rfl := Except.ok.inj (read_nestedText.symm.trans hread)
    have hnames : g'.prune.tokenNames = #["a", "b", "c"] := by
      rw [Grammar.tokenNames_prune, ← Array.toList_inj]
      exact hnumbers.tokenList_eq
    have hcount : 0 < g'.prune.tokenCount := by
      rw [Grammar.tokenCount, hnames]
      decide
    have hname : g'.prune.tokenText 0 = "a" := by
      rw [Grammar.tokenText, hnames]
      rfl
    obtain ⟨s, hs, hshows, -⟩ := htokens 0 hcount
    rw [hname] at hshows
    exact ⟨_, hg, (hrules _ g'.prune.start_lt).1, s, hs, hshows⟩
  · have herrors := (names_stand_at_spans .w32 strayNames).2 _ ofSource_strayNames
    exact ⟨herrors _ List.mem_cons_self "T" (.inr rfl),
      herrors _ (List.mem_cons_of_mem _ List.mem_cons_self) "x" (.inl rfl)⟩

end GrammarRepair
