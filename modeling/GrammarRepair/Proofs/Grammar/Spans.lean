import GrammarRepair.Proofs.Automaton.Reach
import GrammarRepair.Proofs.Grammar.Tables

/-!
Rules over an automaton: a rule spans two states if it derives a string that leads from one to the
other. A span comes from an edge, or it is put together from two spans that meet in between. Main
statement: a sentence is accepted exactly when the start rule spans an initial and a final state.
-/

namespace GrammarRepair

namespace Grammar

/-- Rule `a` derives a string that leads from state `p` to state `q`. -/
def Spans (g : Grammar) (aut : Automaton) (p a q : Nat) : Prop :=
  ∃ w, g.Derives a w ∧ aut.Path p w q

variable {g : Grammar} {aut : Automaton} {p q r a b c : Nat}

theorem spans_of_edge {e : Edge} (he : e ∈ aut.edges)
    (ha : ⟨a, .token e.token⟩ ∈ g.productions.toList) : g.Spans aut e.source a e.target :=
  ⟨[e.token], .token ha, .step he (.stop _)⟩

theorem spans_of_pair (h : ⟨a, .pair b c⟩ ∈ g.productions.toList) (hb : g.Spans aut p b r)
    (hc : g.Spans aut r c q) : g.Spans aut p a q := by
  obtain ⟨v, hv, hpath⟩ := hb
  obtain ⟨w, hw, hpath'⟩ := hc
  exact ⟨v ++ w, .pair h hv hw, hpath.append hpath'⟩

theorem Spans.cases (h : g.Spans aut p a q) :
    (∃ e ∈ aut.edges, e.source = p ∧ e.target = q ∧
      ⟨a, .token e.token⟩ ∈ g.productions.toList) ∨
    ∃ b c r, ⟨a, .pair b c⟩ ∈ g.productions.toList ∧ g.Spans aut p b r ∧ g.Spans aut r c q := by
  obtain ⟨w, hw, hpath⟩ := h
  cases hw with
  | token ha =>
    obtain ⟨e, he, rfl, rfl, hstop⟩ := Automaton.path_cons_iff.1 hpath
    exact .inl ⟨e, he, rfl, Automaton.path_nil_iff.1 hstop, ha⟩
  | pair h hv hw =>
    obtain ⟨r, hpath, hpath'⟩ := Automaton.path_append_iff.1 hpath
    exact .inr ⟨_, _, r, h, ⟨_, hv, hpath⟩, ⟨_, hw, hpath'⟩⟩

theorem Spans.reaches (h : g.Spans aut p a q) : aut.reach.reaches p q = true := by
  obtain ⟨w, hw, hpath⟩ := h
  exact Automaton.reaches_iff.2 ⟨w, hw.ne_nil, hpath⟩

theorem Spans.lt (h : g.Spans aut p a q) : p < q ∧ q < aut.stateCount :=
  Automaton.lt_of_reaches h.reaches

theorem exists_sentence_accepted_iff : (∃ w, g.IsSentence w ∧ aut.accepts w = true) ↔
    ∃ p ∈ aut.initials, ∃ q ∈ aut.finals, g.Spans aut p g.start q := by
  simp only [Automaton.accepts_iff]
  constructor
  · rintro ⟨w, hw, p, hp, q, hq, hpath⟩
    exact ⟨p, hp, q, hq, w, hw, hpath⟩
  · rintro ⟨p, hp, q, hq, w, hw, hpath⟩
    exact ⟨w, hw, p, hp, q, hq, hpath⟩

end Grammar

end GrammarRepair
