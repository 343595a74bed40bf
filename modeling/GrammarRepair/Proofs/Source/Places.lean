import GrammarRepair.Source.Sheet
import Mathlib.Data.List.Pairwise

/-!
Where the words of a grammar source stand. Every reading leaves the cursor at or behind the place
where it began, and behind the words that it read. Main statement: all that is declared and defined,
word by word, is in the order of its places, so each word can be told by its place.
-/

namespace GrammarRepair

theorem byteLength_pos {cs : List Char} (h : cs ≠ []) : 0 < byteLength cs := by
  cases cs with
  | nil => exact absurd rfl h
  | cons c cs => exact Nat.add_pos_left c.utf8Size_pos _

theorem Cursor.offset_lt_skip {c : Cursor} {n : Nat} (hn : 0 < n) (hc : c.ahead ≠ []) :
    c.offset < (c.skip n).offset := by
  refine Nat.lt_add_of_pos_right (byteLength_pos fun hnil => ?_)
  rcases List.take_eq_nil_iff.1 hnil with hzero | hnil
  · exact Nat.ne_of_gt hn hzero
  · exact hc hnil

/-- A piece of text of one byte. -/
def letterAt (text : String) (start : Nat) : Lexeme := ⟨text, start, start + 1, Nat.le_succ start⟩

def Word.place (w : Word) : Nat := w.lexeme.span.start

def Lexeme.place (l : Lexeme) : Nat := l.span.start

def Declaration.names : Declaration → List Lexeme
  | .tokens names => names
  | .start name => [name]

def Declaration.places (d : Declaration) : List Nat := d.names.map (·.place)

def Definition.words (d : Definition) : List Word := d.alternatives.flatMap (·.words)

def Definition.places (d : Definition) : List Nat := d.name.place :: d.words.map (·.place)

namespace Sheet

def words (s : Sheet) : List Word := s.definitions.flatMap (·.words)

/-- The places of all declared names, defined names and words, in the order in which they are read. -/
def places (s : Sheet) : List Nat :=
  s.declarations.flatMap (·.places) ++ s.definitions.flatMap (·.places)

end Sheet

/-- The places are ascending, from one offset on and before another. -/
structure Between (lo : Nat) (places : List Nat) (hi : Nat) : Prop where
  le : lo ≤ hi
  lower : ∀ p ∈ places, lo ≤ p
  upper : ∀ p ∈ places, p < hi
  ascending : places.Pairwise (· < ·)

namespace Between

variable {lo lo' mid hi hi' : Nat} {ps qs : List Nat}

theorem nil (h : lo ≤ hi) : Between lo [] hi := ⟨h, by simp, by simp, .nil⟩

theorem singleton {p : Nat} (hlo : lo ≤ p) (hhi : p < hi) : Between lo [p] hi :=
  ⟨Nat.le_of_lt (Nat.lt_of_le_of_lt hlo hhi), by simpa using hlo, by simpa using hhi,
    List.pairwise_singleton _ _⟩

theorem append (hp : Between lo ps mid) (hq : Between mid qs hi) : Between lo (ps ++ qs) hi := by
  refine ⟨Nat.le_trans hp.le hq.le, fun p hmem => ?_, fun p hmem => ?_,
    List.pairwise_append.2 ⟨hp.ascending, hq.ascending, fun p hp' q hq' => ?_⟩⟩
  · rcases List.mem_append.1 hmem with h | h
    · exact hp.lower p h
    · exact Nat.le_trans hp.le (hq.lower p h)
  · rcases List.mem_append.1 hmem with h | h
    · exact Nat.lt_of_lt_of_le (hp.upper p h) hq.le
    · exact hq.upper p h
  · exact Nat.lt_of_lt_of_le (hp.upper p hp') (hq.lower q hq')

theorem widen (h : Between lo ps hi) (hlo : lo' ≤ lo) (hhi : hi ≤ hi') : Between lo' ps hi' :=
  ⟨Nat.le_trans hlo (Nat.le_trans h.le hhi), fun p hp => Nat.le_trans hlo (h.lower p hp),
    fun p hp => Nat.lt_of_lt_of_le (h.upper p hp) hhi, h.ascending⟩

end Between

namespace Source

theorem offset_le_skipBlanks {breaks : Bool} {c d : Cursor} (h : skipBlanks breaks c = .ok d) :
    c.offset ≤ d.offset := by
  obtain ⟨n, rfl⟩ := skipBlanks_eq_skip h
  exact c.offset_le_skip n

theorem between_readName {c d : Cursor} {l : Lexeme} (h : readName c = .ok (l, d)) :
    Between c.offset [l.place] d.offset := by
  obtain ⟨n, hn, hne, rfl, rfl⟩ := readName_eq_skip h
  exact .singleton (Nat.le_refl _) (Cursor.offset_lt_skip hn hne)

theorem between_readWord {c d : Cursor} {w : Word} (h : readWord c = .ok (w, d)) :
    Between c.offset [w.place] d.offset := by
  unfold readWord at h
  split at h
  · cases h
  · next q cs hc =>
    have hne : c.ahead ≠ [] := by simp [hc]
    split at h
    · split at h
      · cases h
      · next n hn =>
        obtain ⟨rfl, rfl⟩ := Prod.mk.inj (Except.ok.inj h)
        -- Between the quotes there is at least one character.
        have hinside : (c.skip 1).ahead ≠ [] := by
          rw [Cursor.ahead_skip, hc]
          rintro rfl
          cases hn
        refine .singleton (c.offset_le_skip 1) ?_
        have hlength : n + 2 = 1 + (n + 1) := by omega
        rw [hlength, ← Cursor.skip_skip]
        exact Cursor.offset_lt_skip (Nat.succ_pos _) hinside
    · split at h
      · cases h
      · next n hn =>
        obtain ⟨rfl, rfl⟩ := Prod.mk.inj (Except.ok.inj h)
        exact .singleton (Nat.le_refl _) (Cursor.offset_lt_skip (Nat.succ_pos n) hne)

theorem between_readTokens {c d : Cursor} {names : List Lexeme}
    (h : readTokens c = (names, .ok d)) : Between c.offset (names.map (·.place)) d.offset := by
  fun_induction readTokens c generalizing names with
  | case1 c hstop =>
    cases h
    exact .nil (Nat.le_refl _)
  | case2 c hstop e hw => cases h
  | case3 c hstop w d' hw e hb => cases h
  | case4 c hstop w d' hw d'' hb names' outcome hrest ih =>
    cases h
    have hword := (between_readWord hw).widen (Nat.le_refl _) (offset_le_skipBlanks hb)
    exact hword.append (ih hrest)

theorem between_readDeclarations {c d : Cursor} {declarations : List Declaration}
    (h : readDeclarations c = (declarations, .ok d)) :
    Between c.offset (declarations.flatMap (·.places)) d.offset := by
  fun_induction readDeclarations c generalizing declarations with
  | case2 c hend hrules =>
    cases h
    exact .nil (Nat.le_refl _)
  | case5 c hend hrules hsees d₁ hb names d₂ ht rest outcome hrest ih =>
    cases h
    have hle := Nat.le_trans (c.offset_le_skip 6) (offset_le_skipBlanks hb)
    exact ((between_readTokens ht).widen hle (Nat.le_refl _)).append (ih hrest)
  | case9 c hend hrules htoken hsees d₁ hb name d₂ hn d₃ hb' rest outcome hrest ih =>
    cases h
    have hle := Nat.le_trans (c.offset_le_skip 6) (offset_le_skipBlanks hb)
    exact ((between_readName hn).widen hle (offset_le_skipBlanks hb')).append (ih hrest)
  | _ => cases h

/-- The alternatives begin with the words from before and go on with words that were read. -/
theorem between_readAlternatives {soFar : List Word} {c d : Cursor} {alts : List Alternative}
    (h : readAlternatives soFar c = (alts, .ok d)) :
    ∃ ws, alts.flatMap (·.words) = soFar ++ ws ∧
      Between c.offset (ws.map (·.place)) d.offset := by
  fun_induction readAlternatives soFar c generalizing alts with
  | case1 soFar c hend => cases h
  | case2 soFar c hend hc e hb => cases h
  | case3 soFar c hend hc d' hb rest outcome hrest ih =>
    cases h
    obtain ⟨ws, hws, hbetween⟩ := ih hrest
    have hle := Nat.le_trans (c.offset_le_skip 1) (offset_le_skipBlanks hb)
    refine ⟨ws, ?_, hbetween.widen hle (Nat.le_refl _)⟩
    rw [List.flatMap_cons, hws, List.nil_append]
  | case4 soFar c hend hbar hc =>
    cases h
    exact ⟨[], by simp, .nil (c.offset_le_skip 1)⟩
  | case5 soFar c hend hbar hc e hw => cases h
  | case6 soFar c hend hbar hc w d' hw e hb => cases h
  | case7 soFar c hend hbar hc w d' hw d'' hb ih =>
    obtain ⟨ws, hws, hbetween⟩ := ih h
    refine ⟨w :: ws, ?_, ?_⟩
    · rw [hws, List.append_assoc, List.singleton_append]
    · have hword := (between_readWord hw).widen (Nat.le_refl _) (offset_le_skipBlanks hb)
      exact hword.append hbetween

theorem between_readDefinition {c d : Cursor} {defs : List Definition}
    (h : readDefinition c = (defs, .ok d)) :
    Between c.offset (defs.flatMap (·.places)) d.offset := by
  unfold readDefinition at h
  split at h
  · cases h
  · next name d₁ hn =>
    split at h
    · cases h
    · next d₂ hb =>
      split at h
      · split at h
        · cases h
        · next d₃ hb' =>
          cases hr : readAlternatives [] d₃ with
          | mk alts outcome =>
            rw [hr] at h
            cases h
            obtain ⟨ws, hws, hbetween⟩ := between_readAlternatives hr
            have hle : d₁.offset ≤ d₃.offset := calc
              d₁.offset ≤ d₂.offset := offset_le_skipBlanks hb
              _ ≤ (d₂.skip 1).offset := d₂.offset_le_skip 1
              _ ≤ d₃.offset := offset_le_skipBlanks hb'
            have hplaces : [(⟨name, alts⟩ : Definition)].flatMap (·.places) =
                [name.place] ++ ws.map (·.place) := by
              simp [Definition.places, Definition.words, hws]
            rw [hplaces]
            exact ((between_readName hn).widen (Nat.le_refl _) hle).append hbetween
      · cases h

theorem between_readDefinitions {c d : Cursor} {defs : List Definition}
    (h : readDefinitions c = (defs, .ok d)) :
    Between c.offset (defs.flatMap (·.places)) d.offset := by
  fun_induction readDefinitions c generalizing defs with
  | case1 c hc =>
    cases h
    exact .nil (Nat.le_refl _)
  | case2 c hc defs' e hd => cases h
  | case3 c hc defs' d' hd e hb => cases h
  | case4 c hc defs' d' hd d'' hb rest outcome hrest ih =>
    cases h
    rw [List.flatMap_append]
    have hfirst := (between_readDefinition hd).widen (Nat.le_refl _) (offset_le_skipBlanks hb)
    exact hfirst.append (ih hrest)

end Source

namespace Sheet

open Source

theorem ascending_places_readRules {declarations : List Declaration} {lo : Nat} {c : Cursor}
    (hdeclarations : Between lo (declarations.flatMap (·.places)) c.offset)
    (h : (readRules declarations c).stoppedBy = none) :
    (readRules declarations c).places.Pairwise (· < ·) := by
  unfold readRules at h ⊢
  split
  · next e hb =>
    simp only [hb] at h
    cases h
  · next d hb =>
    simp only [hb] at h
    have hle := Nat.le_trans (c.offset_le_skip 2) (offset_le_skipBlanks hb)
    have hbefore := hdeclarations.widen (Nat.le_refl lo) hle
    split
    · next hd =>
      simp only [hd] at h
      cases h
    · next d' hd =>
      have hplaces := (hbefore.append (between_readDefinitions hd)).ascending
      split
      · exact hplaces
      · exact hplaces

theorem ascending_places {text : String} (h : (read text).stoppedBy = none) :
    (read text).places.Pairwise (· < ·) := by
  unfold read at h ⊢
  split
  · exact .nil
  · next c hb =>
    simp only [hb] at h
    split
    · next hd =>
      simp only [hd] at h
      cases h
    · next d hd =>
      simp only [hd] at h
      exact ascending_places_readRules (between_readDeclarations hd) h

theorem sublist_flatMap {α β : Type} {f g : α → List β} (xs : List α)
    (h : ∀ x ∈ xs, (f x).Sublist (g x)) : (xs.flatMap f).Sublist (xs.flatMap g) := by
  induction xs with
  | nil => exact .slnil
  | cons x xs ih =>
    rw [List.flatMap_cons, List.flatMap_cons]
    exact (h x List.mem_cons_self).append (ih fun y hy => h y (List.mem_cons_of_mem x hy))

theorem words_sublist (s : Sheet) :
    (s.words.map (·.place)).Sublist (s.definitions.flatMap (·.places)) := by
  rw [words, List.map_flatMap]
  exact sublist_flatMap _ fun d _ => List.sublist_cons_self _ _

theorem names_sublist (s : Sheet) :
    (s.definitions.map (·.name.place)).Sublist (s.definitions.flatMap (·.places)) := by
  rw [List.map_eq_flatMap]
  exact sublist_flatMap _ fun d _ => (List.nil_sublist _).cons_cons _

theorem declared_sublist (s : Sheet) :
    (s.declared.map (·.place)).Sublist (s.declarations.flatMap (·.places)) := by
  rw [declared, List.map_flatMap]
  refine sublist_flatMap _ fun d _ => ?_
  cases d with
  | tokens names => exact .refl _
  | start name => exact List.nil_sublist _

/-- In a source that is read to its end, words that come later stand further on. -/
theorem ascending_words {text : String} (h : (read text).stoppedBy = none) :
    (read text).words.Pairwise fun v w => v.place < w.place := by
  rw [← List.pairwise_map]
  exact (ascending_places h).sublist ((words_sublist _).trans (List.sublist_append_right _ _))

end Sheet

end GrammarRepair
