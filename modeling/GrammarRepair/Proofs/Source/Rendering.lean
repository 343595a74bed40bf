import GrammarRepair.Proofs.Source.Lexing
import Mathlib.Data.List.Forall2

/-!
Reading a rendered outline section by section. The loops of the reader follow the lists of the outline:
each turn takes what one header, item or clause wrote, and leaves the cursor at the pieces of the next.
Main statement: a rendering is read to its end, and what then stands on the sheet is what the outline
lists.
-/

namespace GrammarRepair

open Outline

def Alternative.Spells (a : Alternative) (body : List Item) : Prop :=
  List.Forall₂ (fun w x => w.Spells x.spelling) a.words body

structure Definition.Spells (d : Definition) (c : Clause) : Prop where
  name : d.name.text = c.name
  alternatives : List.Forall₂ Alternative.Spells d.alternatives c.bodies

def Declaration.Spells : Declaration → Header → Prop
  | .tokens names, .tokens spellings => names.map (·.text) = spellings.map (·.text)
  | .start name, .start text => name.text = text
  | _, _ => False

/-- The sheet was read to its end, and what stands on it is what the outline lists. -/
structure Sheet.Spells (s : Sheet) (o : Outline) : Prop where
  declarations : List.Forall₂ Declaration.Spells s.declarations o.headers
  definitions : List.Forall₂ Definition.Spells s.definitions o.clauses
  stoppedBy : s.stoppedBy = none

namespace Source

variable {c d e : Cursor} {w : Word} {p : Piece} {ps : List Piece}

theorem readTokens_word (hc : (c.atEnd || c.sees "%") = false) (hw : readWord c = .ok (w, d))
    (hb : skipBlanks true d = .ok e) :
    readTokens c = (w.lexeme :: (readTokens e).1, (readTokens e).2) := by
  rw [readTokens, if_neg (Bool.eq_false_iff.1 hc)]
  split
  · next hw' => rw [hw] at hw'; cases hw'
  · next hw' =>
    rw [hw] at hw'
    cases hw'
    split
    · next hb' => rw [hb] at hb'; cases hb'
    · next hb' =>
      rw [hb] at hb'
      cases hb'
      rfl

theorem readDeclarations_tokens {names : List Lexeme} {f : Cursor} (hend : c.atEnd = false)
    (hrules : c.sees "%%" = false) (htokens : c.sees "%token" = true)
    (hb : skipBlanks false (c.skip 6) = .ok d) (ht : readTokens d = (names, .ok f)) :
    readDeclarations c = (.tokens names :: (readDeclarations f).1, (readDeclarations f).2) := by
  rw [readDeclarations, if_neg (Bool.eq_false_iff.1 hend), if_neg (Bool.eq_false_iff.1 hrules),
    dif_pos htokens]
  split
  · next hb' => rw [hb] at hb'; cases hb'
  · next hb' =>
    rw [hb] at hb'
    cases hb'
    split
    · next ht' => rw [ht] at ht'; cases ht'
    · next ht' =>
      rw [ht] at ht'
      cases ht'
      rfl

theorem readDeclarations_start {name : Lexeme} {f g : Cursor} (hend : c.atEnd = false)
    (hrules : c.sees "%%" = false) (htokens : c.sees "%token" = false)
    (hstart : c.sees "%start" = true) (hb : skipBlanks false (c.skip 6) = .ok d)
    (hn : readName d = .ok (name, f)) (hb' : skipBlanks true f = .ok g) :
    readDeclarations c = (.start name :: (readDeclarations g).1, (readDeclarations g).2) := by
  rw [readDeclarations, if_neg (Bool.eq_false_iff.1 hend), if_neg (Bool.eq_false_iff.1 hrules),
    dif_neg (Bool.eq_false_iff.1 htokens), dif_pos hstart]
  split
  · next h => rw [hb] at h; cases h
  · next h =>
    rw [hb] at h
    cases h
    split
    · next h => rw [hn] at h; cases h
    · next h =>
      rw [hn] at h
      cases h
      split
      · next h => rw [hb'] at h; cases h
      · next h =>
        rw [hb'] at h
        cases h
        rfl

theorem readAlternatives_bar {soFar : List Word} (hend : c.atEnd = false)
    (hbar : c.sees "|" = true) (hb : skipBlanks true (c.skip 1) = .ok d) :
    readAlternatives soFar c =
      (⟨soFar, c.offset⟩ :: (readAlternatives [] d).1, (readAlternatives [] d).2) := by
  rw [readAlternatives, if_neg (Bool.eq_false_iff.1 hend), dif_pos hbar]
  split
  · next h => rw [hb] at h; cases h
  · next h =>
    rw [hb] at h
    cases h
    rfl

theorem readAlternatives_semicolon {soFar : List Word} (hend : c.atEnd = false)
    (hbar : c.sees "|" = false) (hsemicolon : c.sees ";" = true) :
    readAlternatives soFar c = ([⟨soFar, c.offset⟩], .ok (c.skip 1)) := by
  rw [readAlternatives, if_neg (Bool.eq_false_iff.1 hend), dif_neg (Bool.eq_false_iff.1 hbar),
    if_pos hsemicolon]

theorem readAlternatives_word {soFar : List Word} (hend : c.atEnd = false)
    (hbar : c.sees "|" = false) (hsemicolon : c.sees ";" = false)
    (hw : readWord c = .ok (w, d)) (hb : skipBlanks true d = .ok e) :
    readAlternatives soFar c = readAlternatives (soFar ++ [w]) e := by
  rw [readAlternatives, if_neg (Bool.eq_false_iff.1 hend), dif_neg (Bool.eq_false_iff.1 hbar),
    if_neg (Bool.eq_false_iff.1 hsemicolon)]
  split
  · next h => rw [hw] at h; cases h
  · next h =>
    rw [hw] at h
    cases h
    split
    · next h => rw [hb] at h; cases h
    · next h =>
      rw [hb] at h
      cases h
      rfl

theorem readDefinition_named {name : Lexeme} {f g : Cursor} (hn : readName c = .ok (name, d))
    (hb : skipBlanks true d = .ok f) (hcolon : f.sees ":" = true)
    (hb' : skipBlanks true (f.skip 1) = .ok g) :
    readDefinition c = ([⟨name, (readAlternatives [] g).1⟩], (readAlternatives [] g).2) := by
  simp only [readDefinition, hn, hb, hcolon, hb', if_pos]

theorem readDefinitions_clause {defs : List Definition} (hend : (c.atEnd || c.sees "%%") = false)
    (hd : readDefinition c = (defs, .ok d)) (hb : skipBlanks true d = .ok e) :
    readDefinitions c = (defs ++ (readDefinitions e).1, (readDefinitions e).2) := by
  rw [readDefinitions, if_neg (Bool.eq_false_iff.1 hend)]
  split
  · next h => rw [hd] at h; cases h
  · next h =>
    rw [hd] at h
    cases h
    split
    · next h => rw [hb] at h; cases h
    · next h =>
      rw [hb] at h
      cases h
      rfl

theorem readTokens_shows (hp : "%".toList.isPrefixOf p.chars = true) (spellings : List Spelling) :
    ∀ c : Cursor, c.Shows (spellings.map .word ++ p :: ps) →
      ∃ names d, readTokens c = (names, .ok d) ∧
        names.map (·.text) = spellings.map (·.text) ∧ d.Shows (p :: ps) := by
  induction spellings with
  | nil =>
    intro c hc
    have hsees : c.sees "%" = true :=
      (hc.sees (List.isPrefixOf_iff_prefix.1 hp).length_le).trans hp
    refine ⟨[], c, ?_, rfl, hc⟩
    rw [readTokens, hsees, Bool.or_true, if_pos rfl]
  | cons s spellings ih =>
    intro c hc
    have hsees : c.sees "%" = false := hc.not_sees (by decide)
    obtain ⟨w, hw, hspells⟩ := hc.readWord
    obtain ⟨d, hb, hd⟩ := hc.skipBlanks
    obtain ⟨names, e, hnames, htexts, he⟩ := ih d hd
    refine ⟨w.lexeme :: names, e, ?_, by rw [List.map_cons, htexts, hspells.text, List.map_cons], he⟩
    rw [readTokens_word (by rw [hc.atEnd_cons, hsees]; rfl) hw hb, hnames]

/-- A header begins with a per cent sign, and so does what ends the headers. -/
theorem exists_percent (headers : List Header) (ps : List Piece) : ∃ p qs,
    headers.flatMap (·.pieces) ++ .rules :: ps = p :: qs ∧
      "%".toList.isPrefixOf p.chars = true := by
  cases headers with
  | nil => exact ⟨_, _, rfl, by decide⟩
  | cons header headers =>
    cases header with
    | tokens spellings => exact ⟨.tokens, _, rfl, by decide⟩
    | start name => exact ⟨.start, _, rfl, by decide⟩

theorem readDeclarations_shows (headers : List Header) :
    ∀ c : Cursor, c.Shows (headers.flatMap (·.pieces) ++ .rules :: ps) →
      ∃ declarations d, readDeclarations c = (declarations, .ok d) ∧
        List.Forall₂ Declaration.Spells declarations headers ∧ d.Shows (.rules :: ps) := by
  induction headers with
  | nil =>
    intro c hc
    have hsees : c.sees "%%" = true := hc.sees (by decide)
    refine ⟨[], c, ?_, .nil, hc⟩
    rw [readDeclarations, if_neg (Bool.eq_false_iff.1 hc.atEnd_cons), if_pos hsees]
  | cons header headers ih =>
    intro c hc
    rw [List.flatMap_cons, List.append_assoc] at hc
    cases header with
    | tokens spellings =>
      have hrules : c.sees "%%" = false := hc.sees (by decide)
      have htokens : c.sees "%token" = true := hc.sees (by decide)
      obtain ⟨d, hb, hd⟩ := hc.skipBlanks
      obtain ⟨p, qs, hqs, hp⟩ := exists_percent headers ps
      rw [hqs] at hd
      obtain ⟨names, e, ht, htexts, he⟩ := readTokens_shows hp spellings d hd
      rw [← hqs] at he
      obtain ⟨declarations, f, hrest, hspells, hf⟩ := ih e he
      refine ⟨.tokens names :: declarations, f, ?_, .cons htexts hspells, hf⟩
      rw [readDeclarations_tokens hc.atEnd_cons hrules htokens hb ht, hrest]
    | start name =>
      have hrules : c.sees "%%" = false := hc.sees (by decide)
      have htokens : c.sees "%token" = false := hc.sees (by decide)
      have hstart : c.sees "%start" = true := hc.sees (by decide)
      obtain ⟨d, hb, hd⟩ := hc.skipBlanks
      obtain ⟨l, hn, htext⟩ := hd.readName
      obtain ⟨e, hb', he⟩ := hd.skipBlanks
      obtain ⟨declarations, f, hrest, hspells, hf⟩ := ih e he
      refine ⟨.start l :: declarations, f, ?_, .cons htext hspells, hf⟩
      rw [readDeclarations_start hc.atEnd_cons hrules htokens hstart hb hn hb', hrest]

theorem readAlternatives_words (body : List Item) :
    ∀ (soFar : List Word) (c : Cursor), c.Shows (bodyPieces body ++ ps) →
      ∃ words d, readAlternatives soFar c = readAlternatives (soFar ++ words) d ∧
        List.Forall₂ (fun w x => w.Spells x.spelling) words body ∧ d.Shows ps := by
  induction body with
  | nil =>
    intro soFar c hc
    exact ⟨[], c, by rw [List.append_nil], .nil, hc⟩
  | cons x body ih =>
    intro soFar c hc
    have hbar : c.sees "|" = false := hc.not_sees (by decide)
    have hsemicolon : c.sees ";" = false := hc.not_sees (by decide)
    obtain ⟨w, hw, hspells⟩ := hc.readWord
    obtain ⟨d, hb, hd⟩ := hc.skipBlanks
    obtain ⟨words, e, hrest, hwords, he⟩ := ih (soFar ++ [w]) d hd
    refine ⟨w :: words, e, ?_, .cons hspells hwords, he⟩
    rw [readAlternatives_word hc.atEnd_cons hbar hsemicolon hw hb, hrest, List.append_assoc]
    rfl

/-- Behind what was read a gap leads to the next pieces. -/
def Precedes (d : Cursor) (ps : List Piece) : Prop := ∃ e, skipBlanks true d = .ok e ∧ e.Shows ps

theorem readAlternatives_shows (more : List (List Item)) :
    ∀ (body : List Item) (c : Cursor), c.Shows (bodyPieces body ++ (morePieces more ++ ps)) →
      ∃ alternatives d, readAlternatives [] c = (alternatives, .ok d) ∧
        List.Forall₂ Alternative.Spells alternatives (body :: more) ∧ Precedes d ps := by
  induction more with
  | nil =>
    intro body c hc
    obtain ⟨words, d, hread, hwords, hd⟩ := readAlternatives_words body [] c hc
    have hbar : d.sees "|" = false := hd.sees (by decide)
    have hsemicolon : d.sees ";" = true := hd.sees (by decide)
    refine ⟨[⟨words, d.offset⟩], d.skip 1, ?_, .cons hwords .nil, hd.skipBlanks⟩
    rw [hread, readAlternatives_semicolon hd.atEnd_cons hbar hsemicolon, List.nil_append]
  | cons next more ih =>
    intro body c hc
    obtain ⟨words, d, hread, hwords, hd⟩ := readAlternatives_words body [] c hc
    have hbar : d.sees "|" = true := hd.sees (by decide)
    obtain ⟨e, hb, he⟩ := hd.skipBlanks
    rw [List.append_eq, List.append_assoc] at he
    obtain ⟨alternatives, f, hrest, hspells, hf⟩ := ih next e he
    refine ⟨⟨words, d.offset⟩ :: alternatives, f, ?_, .cons hwords hspells, hf⟩
    rw [hread, readAlternatives_bar hd.atEnd_cons hbar hb, hrest, List.nil_append]

theorem readDefinition_shows {clause : Clause} (hc : c.Shows (clause.pieces ++ ps)) :
    ∃ definition d, readDefinition c = ([definition], .ok d) ∧ definition.Spells clause ∧
      Precedes d ps := by
  obtain ⟨l, hn, htext⟩ := hc.readName
  obtain ⟨d, hb, hd⟩ := hc.skipBlanks
  have hcolon : d.sees ":" = true := hd.sees (by decide)
  obtain ⟨e, hb', he⟩ := hd.skipBlanks
  rw [List.append_eq, List.append_assoc] at he
  obtain ⟨alternatives, f, hread, hspells, hf⟩ :=
    readAlternatives_shows clause.more clause.first e he
  refine ⟨⟨l, alternatives⟩, f, ?_, ⟨htext, hspells⟩, hf⟩
  rw [readDefinition_named hn hb hcolon hb', hread]

theorem readDefinitions_shows (closed : Bool) (clauses : List Clause) :
    ∀ c : Cursor, c.Shows (clauses.flatMap (·.pieces) ++ closing closed) →
      ∃ definitions d, readDefinitions c = (definitions, .ok d) ∧
        List.Forall₂ Definition.Spells definitions clauses ∧ d.Shows (closing closed) := by
  induction clauses with
  | nil =>
    intro c hc
    have hend : (c.atEnd || c.sees "%%") = true := by
      cases closed with
      | false => rw [hc.atEnd_nil, Bool.true_or]
      | true =>
        have hsees : c.sees "%%" = true := hc.sees (by decide)
        rw [hsees, Bool.or_true]
    exact ⟨[], c, by rw [readDefinitions, if_pos hend], .nil, hc⟩
  | cons clause clauses ih =>
    intro c hc
    have hsees : c.sees "%%" = false := hc.not_sees (by decide)
    have hend : (c.atEnd || c.sees "%%") = false := by rw [hc.atEnd_cons, hsees, Bool.false_or]
    rw [List.flatMap_cons, List.append_assoc] at hc
    obtain ⟨definition, d, hread, hspells, e, hb, he⟩ := readDefinition_shows hc
    obtain ⟨definitions, f, hrest, hdefinitions, hf⟩ := ih e he
    refine ⟨definition :: definitions, f, ?_, .cons hspells hdefinitions, hf⟩
    rw [readDefinitions_clause hend hread hb, hrest]
    rfl

theorem readEnd_shows {closed : Bool} (hc : c.Shows (closing closed)) :
    ∃ d, readEnd c = .ok d := by
  cases closed with
  | false =>
    have hsees : c.sees "%%" = false := by
      have hnil : c.ahead = [] := List.isEmpty_iff.1 hc.atEnd_nil
      rw [Cursor.sees, hnil]
      decide
    exact ⟨c, by rw [readEnd, hsees, if_neg Bool.false_ne_true]⟩
  | true =>
    have hsees : c.sees "%%" = true := hc.sees (by decide)
    obtain ⟨d, hb, hd⟩ := hc.skipBlanks
    have hb : skipBlanks true (c.skip 2) = .ok d := hb
    exact ⟨d, by simp only [readEnd, hsees, hb, hd.atEnd_nil, if_pos]⟩

end Source

theorem spells_of_isRendering {o : Outline} {text : String}
    (hwritable : ∀ p ∈ o.pieces, p.isWritable = true) (h : o.IsRendering text) :
    (Sheet.read text).Spells o := by
  obtain ⟨gap, rest, htext, hgap, hrest⟩ := h
  obtain ⟨c, hstart, hahead⟩ := Source.skipBlanks_gap hgap (solid_of_rendered hrest hwritable)
    (Cursor.start text) htext
  have hc : c.Shows o.pieces := ⟨hahead ▸ hrest, hwritable⟩
  obtain ⟨declarations, d, hdeclarations, hheaders, hd⟩ :=
    Source.readDeclarations_shows o.headers c hc
  obtain ⟨e, hrules, he⟩ := hd.skipBlanks
  have hrules : Source.skipBlanks true (d.skip 2) = .ok e := hrules
  obtain ⟨definitions, f, hdefinitions, hclauses, hf⟩ :=
    Source.readDefinitions_shows o.closed o.clauses e he
  obtain ⟨g, hclosing⟩ := Source.readEnd_shows hf
  have hread : Sheet.read text = ⟨declarations, definitions, none⟩ := by
    simp only [Sheet.read, Sheet.readRules, hstart, hdeclarations, hrules, hdefinitions, hclosing]
  rw [hread]
  exact ⟨hheaders, hclauses, rfl⟩

end GrammarRepair
