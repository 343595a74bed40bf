import GrammarRepair.Grammar.OfSource
import GrammarRepair.Proofs.Source.Classification
import GrammarRepair.Proofs.Source.Cursor

/-!
Where errors point. Every word and every error of a source is recorded where a cursor stands, and a
cursor stands on a character boundary; only the error at a premature end steps back by one byte. What
is recorded as a word is what stands there. Main statement: the places of all errors are within the
source and have a line and a column, unless the source ends prematurely with a character of more than
one byte.
-/

namespace GrammarRepair

variable {text : String}

/-- The piece is what the text has where it stands. -/
def Lexeme.On (text : String) (l : Lexeme) : Prop := ∃ c n, Cursor.On text c ∧ l = c.lexeme n

theorem Lexeme.On.fits {l : Lexeme} (h : l.On text) : l.span.Fits text := by
  obtain ⟨c, n, hc, rfl⟩ := h
  exact hc.fits_spanOf n

def Word.On (text : String) (w : Word) : Prop :=
  ∃ c d, Cursor.On text c ∧ Source.readWord c = .ok (w, d)

def SourceError.Kind.named? : SourceError.Kind → Option String
  | .invalidStartRule name => some name
  | .unknownRule name => some name
  | _ => none

/-- An error that points at character boundaries, or one byte before a premature end. If it is about a
name, it points at the name. -/
structure SourceError.Placed (text : String) (e : SourceError) : Prop where
  fits : e.kind ≠ .prematureEnd → e.span.Fits text
  atEnd : e.kind = .prematureEnd → e.span = .point (text.utf8ByteSize - 1)
  carried : ∀ later, e.kind = .duplicateStart later → ∀ s ∈ later, s.Fits text
  named : ∀ name, e.kind.named? = some name → (⟨name, e.span⟩ : Lexeme).On text

theorem placed_of_fits {kind : SourceError.Kind} {s : Span} (hs : s.Fits text)
    (hend : kind ≠ .prematureEnd) (hstart : ∀ later, kind ≠ .duplicateStart later)
    (hnamed : kind.named? = none) : SourceError.Placed text ⟨kind, s⟩ := by
  refine ⟨fun _ => hs, fun h => absurd h hend, fun later h => absurd h (hstart later), ?_⟩
  intro name h
  cases hnamed.symm.trans h

theorem placed_of_named {kind : SourceError.Kind} {l : Lexeme} (hl : l.On text)
    (hnamed : kind.named? = some l.text) : SourceError.Placed text ⟨kind, l.span⟩ := by
  refine ⟨fun _ => hl.fits, fun h => ?_, fun later h => ?_, fun name h => ?_⟩
  · cases (congrArg SourceError.Kind.named? h).symm.trans hnamed
  · cases (congrArg SourceError.Kind.named? h).symm.trans hnamed
  · obtain rfl := Option.some.inj (hnamed.symm.trans h)
    exact hl

/-- A cursor that stays on the text, or an error that points at it. -/
def Lands (text : String) : Except SourceError Cursor → Prop
  | .ok c => c.On text
  | .error e => e.Placed text

structure Alternative.Fits (text : String) (a : Alternative) : Prop where
  words : ∀ w ∈ a.words, w.On text
  stop : IsBoundary text a.stop

structure Definition.Fits (text : String) (d : Definition) : Prop where
  name : d.name.On text
  alternatives : ∀ a ∈ d.alternatives, a.Fits text

def Declaration.Fits (text : String) : Declaration → Prop
  | .tokens names => ∀ name ∈ names, ∃ w : Word, w.On text ∧ w.lexeme = name
  | .start name => name.On text

namespace Source

variable {c d : Cursor}

theorem lands_point {kind : SourceError.Kind} (hc : c.On text) (hend : kind ≠ .prematureEnd)
    (hstart : ∀ later, kind ≠ .duplicateStart later) (hnamed : kind.named? = none) :
    Lands text (.error (.point kind c.offset)) :=
  placed_of_fits (Span.fits_point_iff.2 hc.isBoundary) hend hstart hnamed

theorem blankLength_error {breaks : Bool} {cs : List Char} {kind : SourceError.Kind}
    (h : blankLength breaks cs = .error kind) :
    kind = .reachedEndOfLine ∨ kind = .incompleteComment := by
  unfold blankLength at h
  repeat' split at h
  all_goals cases h <;> simp

theorem lands_skipBlanks {breaks : Bool} (hc : c.On text) : Lands text (skipBlanks breaks c) := by
  fun_induction skipBlanks breaks c with
  | case1 c kind hk =>
    rcases blankLength_error hk with rfl | rfl
    · exact lands_point hc (by simp) (by simp) rfl
    · exact lands_point hc (by simp) (by simp) rfl
  | case2 c hk => exact hc
  | case3 c n hk ih => exact ih (hc.skip _)

theorem on_of_skipBlanks {breaks : Bool} (hc : c.On text) (h : skipBlanks breaks c = .ok d) :
    d.On text := by
  have hlands : Lands text (skipBlanks breaks c) := lands_skipBlanks hc
  rwa [h] at hlands

theorem placed_of_skipBlanks {breaks : Bool} {e : SourceError} (hc : c.On text)
    (h : skipBlanks breaks c = .error e) : e.Placed text := by
  have hlands : Lands text (skipBlanks breaks c) := lands_skipBlanks hc
  rwa [h] at hlands

theorem on_of_readName {l : Lexeme} (hc : c.On text) (h : readName c = .ok (l, d)) :
    l.On text ∧ d.On text := by
  obtain ⟨n, -, -, rfl, rfl⟩ := readName_eq_skip h
  exact ⟨⟨c, n, hc, rfl⟩, hc.skip n⟩

theorem placed_of_readName {e : SourceError} (hc : c.On text) (h : readName c = .error e) :
    e.Placed text := by
  unfold readName at h
  split at h
  · cases h
    exact lands_point hc (by simp) (by simp) rfl
  · cases h

theorem on_of_readWord {w : Word} (hc : c.On text) (h : readWord c = .ok (w, d)) :
    w.On text ∧ d.On text := by
  obtain ⟨n, -, -, rfl⟩ := readWord_eq_skip h
  exact ⟨⟨c, _, hc, h⟩, hc.skip n⟩

theorem lexeme_on_of_readWord {w : Word} (hc : c.On text) (h : readWord c = .ok (w, d)) :
    w.lexeme.On text := by
  unfold readWord at h
  split at h
  · cases h
  · split at h
    · split at h
      · cases h
      · next n hn =>
        cases h
        exact ⟨c.skip 1, n, hc.skip 1, rfl⟩
    · split at h
      · cases h
      · next n hn =>
        cases h
        exact ⟨c, n + 1, hc, rfl⟩

theorem placed_of_readWord {e : SourceError} (hc : c.On text) (h : readWord c = .error e) :
    e.Placed text := by
  have hpoint : e = .point .illegalString c.offset := by
    unfold readWord at h
    repeat' split at h
    all_goals cases h <;> rfl
  rw [hpoint]
  exact lands_point hc (by simp) (by simp) rfl

end Source

theorem Word.On.lexeme {w : Word} (h : w.On text) : w.lexeme.On text := by
  obtain ⟨c, d, hc, hw⟩ := h
  exact Source.lexeme_on_of_readWord hc hw

namespace Source

variable {c d : Cursor}

theorem fits_readTokens (hc : c.On text) :
    (∀ name ∈ (readTokens c).1, ∃ w : Word, w.On text ∧ w.lexeme = name) ∧
      Lands text (readTokens c).2 := by
  fun_induction readTokens c with
  | case1 c hstop => exact ⟨by simp, hc⟩
  | case2 c hstop e hw => exact ⟨by simp, placed_of_readWord hc hw⟩
  | case3 c hstop w d hw e hb =>
    obtain ⟨hword, hd⟩ := on_of_readWord hc hw
    exact ⟨List.forall_mem_singleton.2 ⟨w, hword, rfl⟩, placed_of_skipBlanks hd hb⟩
  | case4 c hstop w d hw d' hb names outcome hrest ih =>
    obtain ⟨hword, hd⟩ := on_of_readWord hc hw
    obtain ⟨hnames, hlands⟩ := ih (on_of_skipBlanks hd hb)
    rw [hrest] at hnames hlands
    exact ⟨List.forall_mem_cons.2 ⟨⟨w, hword, rfl⟩, hnames⟩, hlands⟩

theorem fits_readDeclarations (hc : c.On text) :
    (∀ declaration ∈ (readDeclarations c).1, declaration.Fits text) ∧
      Lands text (readDeclarations c).2 := by
  fun_induction readDeclarations c with
  | case1 c hend =>
    refine ⟨by simp, ?_, ?_, ?_, ?_⟩
    · exact fun h => absurd rfl h
    · intro _
      have hsize := hc.size_eq
      rw [List.isEmpty_iff.1 hend, byteLength_nil, Nat.add_zero] at hsize
      rw [hsize]
      rfl
    · exact fun later h => by cases h
    · exact fun name h => by cases h
  | case2 c hend hc' => exact ⟨by simp, hc⟩
  | case3 c hend hrules hsees e hb => exact ⟨by simp, placed_of_skipBlanks (hc.skip 6) hb⟩
  | case4 c hend hrules hsees d hb names e ht =>
    have htokens := fits_readTokens (on_of_skipBlanks (hc.skip 6) hb)
    rw [ht] at htokens
    exact ⟨List.forall_mem_singleton.2 htokens.1, htokens.2⟩
  | case5 c hend hrules hsees d hb names d' ht rest outcome hrest ih =>
    have htokens := fits_readTokens (on_of_skipBlanks (hc.skip 6) hb)
    rw [ht] at htokens
    obtain ⟨hdeclarations, hlands⟩ := ih htokens.2
    rw [hrest] at hdeclarations hlands
    exact ⟨List.forall_mem_cons.2 ⟨htokens.1, hdeclarations⟩, hlands⟩
  | case6 c hend hrules htoken hsees e hb => exact ⟨by simp, placed_of_skipBlanks (hc.skip 6) hb⟩
  | case7 c hend hrules htoken hsees d hb e hn =>
    exact ⟨by simp, placed_of_readName (on_of_skipBlanks (hc.skip 6) hb) hn⟩
  | case8 c hend hrules htoken hsees d hb name d' hn e hb' =>
    obtain ⟨hfits, hd⟩ := on_of_readName (on_of_skipBlanks (hc.skip 6) hb) hn
    exact ⟨List.forall_mem_singleton.2 hfits, placed_of_skipBlanks hd hb'⟩
  | case9 c hend hrules htoken hsees d hb name d' hn d'' hb' rest outcome hrest ih =>
    obtain ⟨hfits, hd⟩ := on_of_readName (on_of_skipBlanks (hc.skip 6) hb) hn
    obtain ⟨hdeclarations, hlands⟩ := ih (on_of_skipBlanks hd hb')
    rw [hrest] at hdeclarations hlands
    exact ⟨List.forall_mem_cons.2 ⟨hfits, hdeclarations⟩, hlands⟩
  | case10 c hend hrules htoken hstart =>
    exact ⟨by simp, lands_point hc (by simp) (by simp) rfl⟩

/-- The words from before are part of the first alternative. -/
theorem fits_readAlternatives {soFar : List Word} (hc : c.On text)
    (hwords : ∀ w ∈ soFar, w.On text) :
    (∀ a ∈ (readAlternatives soFar c).1, a.Fits text) ∧
      Lands text (readAlternatives soFar c).2 := by
  fun_induction readAlternatives soFar c with
  | case1 soFar c hend => exact ⟨by simp, lands_point hc (by simp) (by simp) rfl⟩
  | case2 soFar c hend hsees e hb =>
    refine ⟨List.forall_mem_singleton.2 ⟨hwords, hc.isBoundary⟩, ?_⟩
    exact placed_of_skipBlanks (hc.skip 1) hb
  | case3 soFar c hend hsees d hb rest outcome hrest ih =>
    obtain ⟨halternatives, hlands⟩ := ih (on_of_skipBlanks (hc.skip 1) hb) (by simp)
    rw [hrest] at halternatives hlands
    exact ⟨List.forall_mem_cons.2 ⟨⟨hwords, hc.isBoundary⟩, halternatives⟩, hlands⟩
  | case4 soFar c hend hbar hsees =>
    exact ⟨List.forall_mem_singleton.2 ⟨hwords, hc.isBoundary⟩, hc.skip 1⟩
  | case5 soFar c hend hbar hsees e hw => exact ⟨by simp, placed_of_readWord hc hw⟩
  | case6 soFar c hend hbar hsees w d hw e hb =>
    exact ⟨by simp, placed_of_skipBlanks (on_of_readWord hc hw).2 hb⟩
  | case7 soFar c hend hbar hsees w d hw d' hb ih =>
    obtain ⟨hfits, hd⟩ := on_of_readWord hc hw
    refine ih (on_of_skipBlanks hd hb) fun w' hw' => ?_
    rcases List.mem_append.1 hw' with hw' | hw'
    · exact hwords w' hw'
    · rwa [List.mem_singleton.1 hw']

theorem fits_readDefinition (hc : c.On text) :
    (∀ definition ∈ (readDefinition c).1, definition.Fits text) ∧
      Lands text (readDefinition c).2 := by
  unfold readDefinition
  split
  · next e hn => exact ⟨by simp, placed_of_readName hc hn⟩
  · next name d hn =>
    obtain ⟨hfits, hd⟩ := on_of_readName hc hn
    have hbare : (⟨name, []⟩ : Definition).Fits text := ⟨hfits, by simp⟩
    split
    · next e hb => exact ⟨List.forall_mem_singleton.2 hbare, placed_of_skipBlanks hd hb⟩
    · next d' hb =>
      have hd' := on_of_skipBlanks hd hb
      split
      · split
        · next e hb' =>
          exact ⟨List.forall_mem_singleton.2 hbare, placed_of_skipBlanks (hd'.skip 1) hb'⟩
        · next d'' hb' =>
          obtain ⟨halternatives, hlands⟩ :=
            fits_readAlternatives (on_of_skipBlanks (hd'.skip 1) hb') (List.forall_mem_nil _)
          exact ⟨List.forall_mem_singleton.2 ⟨hfits, halternatives⟩, hlands⟩
      · exact ⟨List.forall_mem_singleton.2 hbare, lands_point hd' (by simp) (by simp) rfl⟩

theorem fits_readDefinitions (hc : c.On text) :
    (∀ definition ∈ (readDefinitions c).1, definition.Fits text) ∧
      Lands text (readDefinitions c).2 := by
  fun_induction readDefinitions c with
  | case1 c hstop => exact ⟨by simp, hc⟩
  | case2 c hstop defs e hd =>
    have hdefinition := fits_readDefinition hc
    rwa [hd] at hdefinition
  | case3 c hstop defs d hd e hb =>
    have hdefinition := fits_readDefinition hc
    rw [hd] at hdefinition
    exact ⟨hdefinition.1, placed_of_skipBlanks hdefinition.2 hb⟩
  | case4 c hstop defs d hd d' hb rest outcome hrest ih =>
    have hdefinition := fits_readDefinition hc
    rw [hd] at hdefinition
    obtain ⟨hdefinitions, hlands⟩ := ih (on_of_skipBlanks hdefinition.2 hb)
    rw [hrest] at hdefinitions hlands
    exact ⟨List.forall_mem_append.2 ⟨hdefinition.1, hdefinitions⟩, hlands⟩

theorem lands_readEnd (hc : c.On text) : Lands text (readEnd c) := by
  unfold readEnd
  split
  · split
    · next e hb => exact placed_of_skipBlanks (hc.skip 2) hb
    · next d hb =>
      have hd := on_of_skipBlanks (hc.skip 2) hb
      split
      · exact hd
      · exact lands_point hd (by simp) (by simp) rfl
  · exact hc

end Source

structure Sheet.Fits (text : String) (s : Sheet) : Prop where
  declarations : ∀ declaration ∈ s.declarations, declaration.Fits text
  definitions : ∀ definition ∈ s.definitions, definition.Fits text
  stoppedBy : ∀ e, s.stoppedBy = some e → e.Placed text

namespace Sheet

open Source

theorem fits_readRules {declarations : List Declaration} {c : Cursor} (hc : c.On text)
    (hdeclarations : ∀ declaration ∈ declarations, declaration.Fits text) :
    (readRules declarations c).Fits text := by
  unfold readRules
  split
  · next e hb =>
    refine ⟨hdeclarations, by simp, ?_⟩
    rintro _ ⟨⟩
    exact placed_of_skipBlanks (hc.skip 2) hb
  · next d hb =>
    have hdefinitions := fits_readDefinitions (on_of_skipBlanks (hc.skip 2) hb)
    split
    · next defs e hd =>
      rw [hd] at hdefinitions
      refine ⟨hdeclarations, hdefinitions.1, ?_⟩
      rintro _ ⟨⟩
      exact hdefinitions.2
    · next defs d' hd =>
      rw [hd] at hdefinitions
      have hlands := lands_readEnd hdefinitions.2
      split
      · next e hend =>
        rw [hend] at hlands
        refine ⟨hdeclarations, hdefinitions.1, ?_⟩
        rintro _ ⟨⟩
        exact hlands
      · exact ⟨hdeclarations, hdefinitions.1, by simp⟩

theorem fits_read (text : String) : (read text).Fits text := by
  unfold read
  split
  · next e hb =>
    refine ⟨by simp, by simp, ?_⟩
    rintro _ ⟨⟩
    exact placed_of_skipBlanks (Cursor.on_start text) hb
  · next c hb =>
    have hdeclarations := fits_readDeclarations (on_of_skipBlanks (Cursor.on_start text) hb)
    split
    · next declarations e hd =>
      rw [hd] at hdeclarations
      refine ⟨hdeclarations.1, by simp, ?_⟩
      rintro _ ⟨⟩
      exact hdeclarations.2
    · next declarations d hd =>
      rw [hd] at hdeclarations
      exact fits_readRules hdeclarations.2 hdeclarations.1

variable {s : Sheet}

theorem Fits.starts (h : s.Fits text) : ∀ name ∈ s.starts, name.On text := by
  intro name hname
  obtain ⟨declaration, hmem, hsome⟩ := List.mem_filterMap.1 hname
  cases declaration with
  | tokens names => cases hsome
  | start name' =>
    cases hsome
    exact h.declarations _ hmem

theorem Fits.declared (h : s.Fits text) :
    ∀ name ∈ s.declared, ∃ w : Word, w.On text ∧ w.lexeme = name := by
  intro name hname
  obtain ⟨declaration, hmem, hname⟩ := List.mem_flatMap.1 hname
  cases declaration with
  | tokens names => exact h.declarations _ hmem name hname
  | start name' => cases hname

theorem Fits.words (h : s.Fits text) : ∀ w ∈ s.words, w.On text := by
  intro w hw
  obtain ⟨definition, hmem, hw⟩ := List.mem_flatMap.1 hw
  obtain ⟨a, ha, hw⟩ := List.mem_flatMap.1 hw
  exact ((h.definitions _ hmem).alternatives a ha).words w hw

theorem Fits.errors (h : s.Fits text) : ∀ e ∈ s.errors, e.Placed text := by
  intro e he
  rcases List.mem_append.1 he with he | he
  · rcases List.mem_append.1 he with he | he
    · have hstarts := h.starts
      unfold duplicateStarts at he
      split at he
      · next first next' later hsplit =>
        rw [hsplit] at hstarts
        obtain rfl := List.mem_singleton.1 he
        refine ⟨fun _ => (hstarts first (by simp)).fits, fun hkind => (by cases hkind), ?_,
          fun name hkind => (by cases hkind)⟩
        intro later' hkind s' hs'
        cases hkind
        obtain ⟨name, hname, rfl⟩ := List.mem_map.1 hs'
        exact (hstarts name (List.mem_cons_of_mem _ hname)).fits
      · cases he
    · obtain ⟨a, ha, hsome⟩ := List.mem_filterMap.1 he
      obtain ⟨definition, hmem, ha⟩ := List.mem_flatMap.1 ha
      split at hsome
      · cases hsome
        have hstop := ((h.definitions _ hmem).alternatives a ha).stop
        exact placed_of_fits (Span.fits_point_iff.2 hstop) (by simp) (by simp) rfl
      · cases hsome
  · exact h.stoppedBy e (by simpa using he)

end Sheet

namespace Written

variable {s : Sheet}

theorem on_start_ofSheet (h : s.Fits text) {name : Lexeme}
    (hname : (ofSheet s).start = some name) : name.On text := by
  have hstart : (s.starts.head? <|> s.definitions.head?.map (·.name)) = some name := hname
  cases hfirst : s.starts.head? with
  | some first =>
    rw [hfirst] at hstart
    cases hstart
    exact h.starts name (List.mem_of_head? hfirst)
  | none =>
    rw [hfirst] at hstart
    obtain ⟨definition, hmem, rfl⟩ := Option.map_eq_some_iff.1 hstart
    exact (h.definitions _ (List.mem_of_head? hmem)).name

theorem placed_errors (h : s.Fits text) : ∀ e ∈ (ofSheet s).errors, e.Placed text := by
  intro e he
  rcases List.mem_append.1 he with he | he
  · unfold startErrors at he
    split at he
    · obtain rfl := List.mem_singleton.1 he
      exact placed_of_fits (Span.fits_point_iff.2 (isBoundary_zero text)) (by simp) (by simp) rfl
    · next name hname =>
      split at he
      · cases he
      · obtain rfl := List.mem_singleton.1 he
        exact placed_of_named (on_start_ofSheet h hname) rfl
  · obtain ⟨x, hx, hsome⟩ := List.mem_filterMap.1 he
    obtain ⟨i, w, hw, ⟨rfl, -⟩ | ⟨rfl, -⟩⟩ := exists_word_of_mem_symbols hx
    · cases hsome
    · simp only at hsome
      split at hsome
      · cases hsome
      · cases hsome
        exact placed_of_named (h.words w (List.mem_of_getElem? hw)).lexeme rfl

theorem placed_of_read {errors : List SourceError} (h : read text = .error errors) :
    ∀ e ∈ errors, e.Placed text := by
  unfold read at h
  simp only at h
  split at h
  · split at h
    · cases h
    · cases h
      exact placed_errors (Sheet.fits_read text)
  · cases h
    exact (Sheet.fits_read text).errors

end Written

theorem read_of_rejected {w : Width} {errors : List SourceError}
    (h : Grammar.ofSource w text = .error (.rejected errors)) : Written.read text = .error errors := by
  unfold Grammar.ofSource at h
  split at h
  · next errors' hread =>
    cases h
    exact hread
  · split at h
    · cases h
    · cases h

/-- The places of the errors of a source, and the places that an error about start rules carries, are
within the source. They are character boundaries, and an error has a line and a column, unless the
source ends prematurely and its last character takes more than one byte: then the error points into
that character. -/
theorem places_of_errors {w : Width} {errors : List SourceError}
    (h : Grammar.ofSource w text = .error (.rejected errors)) : ∀ e ∈ errors,
      (e.span.start ≤ e.span.stop ∧ e.span.stop ≤ text.utf8ByteSize) ∧
      (∀ later, e.kind = .duplicateStart later → ∀ s ∈ later,
        s.start ≤ s.stop ∧ s.stop ≤ text.utf8ByteSize ∧ s.Fits text) ∧
      (e.span.Fits text ↔ ¬ (e.kind = .prematureEnd ∧ EndsWide text)) ∧
      ((e.span.lineColumn? text).isSome = true ↔ ¬ (e.kind = .prematureEnd ∧ EndsWide text)) := by
  have hread := read_of_rejected h
  intro e he
  have hplaced := Written.placed_of_read hread e he
  have hcarried : ∀ later, e.kind = .duplicateStart later → ∀ s ∈ later,
      s.start ≤ s.stop ∧ s.stop ≤ text.utf8ByteSize ∧ s.Fits text := by
    intro later hkind s hs
    have hfits := hplaced.carried later hkind s hs
    exact ⟨s.start_le_stop, hfits.stop.le, hfits⟩
  rw [lineColumn?_isSome_iff]
  by_cases hkind : e.kind = .prematureEnd
  · have hspan := hplaced.atEnd hkind
    have hiff : IsBoundary text (text.utf8ByteSize - 1) ↔
        ¬ (e.kind = .prematureEnd ∧ EndsWide text) := by
      rw [isBoundary_pred_iff, and_iff_right hkind]
    rw [hspan, Span.fits_point_iff, Span.point_start, Span.point_stop]
    exact ⟨⟨Nat.le_refl _, Nat.sub_le _ _⟩, hcarried, hiff, hiff⟩
  · have hfits := hplaced.fits hkind
    exact ⟨⟨e.span.start_le_stop, hfits.stop.le⟩, hcarried,
      iff_of_true hfits fun hend => hkind hend.1, iff_of_true hfits.start fun hend => hkind hend.1⟩

/-- Two declared start rules, and a rule whose name no rule can have. -/
def twoStarts : String := "%start A\n%start B\n%% é"

theorem ofSource_twoStarts : Grammar.ofSource .w32 twoStarts = .error (.rejected
    [⟨.duplicateStart [⟨16, 17, by decide⟩], ⟨7, 8, by decide⟩⟩, .point .illegalName 21]) := by
  have hread : Written.read twoStarts = .error
      [⟨.duplicateStart [⟨16, 17, by decide⟩], ⟨7, 8, by decide⟩⟩, .point .illegalName 21] := by
    decide +kernel
  rw [Grammar.ofSource, hread]

/-- Both errors have a line and a column. -/
theorem places_of_errors_twoStarts :
    ((⟨7, 8, by decide⟩ : Span).lineColumn? twoStarts).isSome = true ∧
      ((Span.point 21).lineColumn? twoStarts).isSome = true := by
  have hplaces := places_of_errors ofSource_twoStarts
  constructor
  · exact (hplaces _ List.mem_cons_self).2.2.2.2 (by simp)
  · exact (hplaces _ (List.mem_cons_of_mem _ List.mem_cons_self)).2.2.2.2
      (by simp [SourceError.point])

/-- A source that ends with a comment, and the comment with a character of two bytes. -/
def wideComment : String := "// é"

/-- The error points at the second byte of the last character. -/
theorem premature_end_inside_character :
    Grammar.ofSource .w32 wideComment = .error (.rejected [.point .prematureEnd 4]) ∧
      wideComment.utf8ByteSize = 5 ∧ ¬ (Span.point 4).Fits wideComment ∧
      (Span.point 4).lineColumn? wideComment = none := by
  have hread : Written.read wideComment = .error [.point .prematureEnd 4] := by decide +kernel
  refine ⟨?_, by decide +kernel, ?_, by decide +kernel⟩
  · rw [Grammar.ofSource, hread]
  · rw [Span.fits_point_iff]
    decide +kernel

end GrammarRepair
