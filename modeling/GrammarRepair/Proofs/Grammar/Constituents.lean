import GrammarRepair.Forest.Arena
import GrammarRepair.Proofs.Grammar.Spans

/-!
Constituents that derive something, how they are put together, and which of them an accepted
sentence needs: the start rule between an initial and a final state, and both parts of whatever is
needed. Main statements: a constituent that derives something is a token of an edge or has two parts
over lesser distances, and some constituent is needed exactly when some sentence is accepted.
-/

namespace GrammarRepair

namespace Constituent

variable {g : Grammar} {aut : Automaton} {t l r : Constituent}

/-- The rule derives a string that leads from the source to the target. -/
def Spanned (g : Grammar) (aut : Automaton) (t : Constituent) : Prop :=
  g.Spans aut t.source t.rule t.target

/-- A token of an edge makes up the constituent. -/
def IsToken (g : Grammar) (aut : Automaton) (t : Constituent) : Prop :=
  ∃ e ∈ aut.edges, e.source = t.source ∧ e.target = t.target ∧
    ⟨t.rule, .token e.token⟩ ∈ g.productions.toList

/-- A production makes up `t` of the parts `l` and `r`, and both parts derive something. -/
def Splits (g : Grammar) (aut : Automaton) (t l r : Constituent) : Prop :=
  ∃ b c m, ⟨t.rule, .pair b c⟩ ∈ g.productions.toList ∧ l = ⟨t.source, b, m⟩ ∧
    r = ⟨m, c, t.target⟩ ∧ l.Spanned g aut ∧ r.Spanned g aut

def HasPart (g : Grammar) (aut : Automaton) (t y : Constituent) : Prop :=
  ∃ l r, t.Splits g aut l r ∧ (y = l ∨ y = r)

/-- A constituent takes part in a derivation of a sentence that the automaton accepts. -/
inductive Needed (g : Grammar) (aut : Automaton) : Constituent → Prop
  | start {p q : Nat} (hp : p ∈ aut.initials) (hq : q ∈ aut.finals)
      (h : g.Spans aut p g.start q) : Needed g aut ⟨p, g.start, q⟩
  | part {t y : Constituent} (h : Needed g aut t) (hy : t.HasPart g aut y) : Needed g aut y

theorem spanned_iff : t.Spanned g aut ↔ t.IsToken g aut ∨ ∃ l r, t.Splits g aut l r := by
  constructor
  · intro h
    rcases h.cases with htoken | ⟨b, c, m, ha, hb, hc⟩
    · exact .inl htoken
    · exact .inr ⟨_, _, b, c, m, ha, rfl, rfl, hb, hc⟩
  · rintro (⟨e, he, hsource, htarget, ha⟩ | ⟨l, r, b, c, m, ha, rfl, rfl, hb, hc⟩)
    · have hspans := Grammar.spans_of_edge he ha
      rwa [hsource, htarget] at hspans
    · exact Grammar.spans_of_pair ha hb hc

theorem IsToken.spanned (h : t.IsToken g aut) : t.Spanned g aut := spanned_iff.2 (.inl h)

theorem Splits.spanned (h : t.Splits g aut l r) : t.Spanned g aut := spanned_iff.2 (.inr ⟨l, r, h⟩)

theorem Spanned.lt (h : t.Spanned g aut) : t.source < t.target ∧ t.target < aut.stateCount :=
  Grammar.Spans.lt h

theorem Splits.bounds (h : t.Splits g aut l r) :
    l.source = t.source ∧ l.target = r.source ∧ r.target = t.target ∧
      t.source < r.source ∧ r.source < t.target ∧ t.target < aut.stateCount := by
  obtain ⟨b, c, m, -, rfl, rfl, hl, hr⟩ := h
  exact ⟨rfl, rfl, rfl, hl.lt.1, hr.lt⟩

theorem HasPart.spanned {y : Constituent} (h : t.HasPart g aut y) : y.Spanned g aut := by
  obtain ⟨l, r, ⟨b, c, m, -, -, -, hl, hr⟩, rfl | rfl⟩ := h
  · exact hl
  · exact hr

theorem HasPart.distance_lt {y : Constituent} (h : t.HasPart g aut y) :
    y.target - y.source < t.target - t.source := by
  obtain ⟨l, r, hsplits, rfl | rfl⟩ := h
  · have hbounds := hsplits.bounds
    omega
  · have hbounds := hsplits.bounds
    omega

theorem Needed.spanned (h : t.Needed g aut) : t.Spanned g aut := by
  cases h with
  | start hp hq h => exact h
  | part h hy => exact hy.spanned

/-- Whatever is needed, something is needed at the start. -/
theorem Needed.exists_start (h : t.Needed g aut) :
    ∃ p ∈ aut.initials, ∃ q ∈ aut.finals, g.Spans aut p g.start q := by
  induction h with
  | start hp hq h => exact ⟨_, hp, _, hq, h⟩
  | part h hy ih => exact ih

theorem exists_needed_iff : (∃ t, Needed g aut t) ↔
    ∃ w, g.IsSentence w ∧ aut.accepts w = true := by
  rw [Grammar.exists_sentence_accepted_iff]
  constructor
  · rintro ⟨t, h⟩
    exact h.exists_start
  · rintro ⟨p, hp, q, hq, h⟩
    exact ⟨_, .start hp hq h⟩

end Constituent

end GrammarRepair
