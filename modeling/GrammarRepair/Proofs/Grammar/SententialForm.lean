import GrammarRepair.Proofs.Grammar.Checked
import GrammarRepair.Proofs.Grammar.Occurrence
import Mathlib.Computability.ContextFreeGrammar

/-!
Sentential forms. A production rewrites its head to its right-hand side wherever the head stands, and
only productions that can be completed lead to a sentence. Main statement: the marks of a grammar are
found, and say which rules derive a string, which stand in a sentential form of productions that can
be completed, and which in a derivation of a sentence.
-/

namespace GrammarRepair

namespace Production

variable {p : Production} {a b c : Nat}

def rewriting (p : Production) : ContextFreeRule Nat Nat where
  input := p.head
  output :=
    match p.body with
    | .pair b c => [.nonterminal b, .nonterminal c]
    | .token t => [.terminal t]

theorem nonterminal_mem_output_iff : .nonterminal a ∈ p.rewriting.output ↔
    ∃ b c, p.body = .pair b c ∧ (a = b ∨ a = c) := by
  unfold rewriting
  cases p.body with
  | pair b c =>
    constructor
    · intro h
      exact ⟨b, c, rfl, by simpa using h⟩
    · rintro ⟨b', c', hbody, h⟩
      cases hbody
      simpa using h
  | token t => simp

end Production

namespace Grammar

variable {g : Grammar} {a b : Nat} {p : Production}

def Completable (g : Grammar) (p : Production) : Prop :=
  ∀ b, .nonterminal b ∈ p.rewriting.output → ∃ w, g.Derives b w

open Classical in
noncomputable abbrev completable (g : Grammar) : ContextFreeGrammar Nat where
  NT := Nat
  initial := g.start
  rules := ((g.productions.toList.filter fun p => decide (g.Completable p)).map
    Production.rewriting).toFinset

theorem mem_rules_completable {r : ContextFreeRule Nat Nat} : r ∈ g.completable.rules ↔
    ∃ p ∈ g.productions.toList, g.Completable p ∧ p.rewriting = r := by
  simp only [List.mem_toFinset, List.mem_map, List.mem_filter, decide_eq_true_eq, and_assoc]

/-- A rule leads to what its productions that can be completed are rewritten to. -/
theorem leads_iff : g.Leads a b ↔ ∃ p ∈ g.productions.toList,
    g.Completable p ∧ p.head = a ∧ .nonterminal b ∈ p.rewriting.output := by
  constructor
  · rintro ⟨l, r, hp, hb, hl, hr⟩
    refine ⟨_, hp, fun x hx => ?_, rfl, Production.nonterminal_mem_output_iff.2 ⟨l, r, rfl, hb⟩⟩
    obtain ⟨_, _, hbody, hx⟩ := Production.nonterminal_mem_output_iff.1 hx
    cases hbody
    rcases hx with rfl | rfl
    · exact hl
    · exact hr
  · rintro ⟨⟨head, body⟩, hp, hcompletable, rfl, hb⟩
    obtain ⟨l, r, hbody, hcase⟩ := Production.nonterminal_mem_output_iff.1 hb
    cases hbody
    have hpart : ∀ x, x = l ∨ x = r → ∃ w, g.Derives x w := fun x hx =>
      hcompletable x (Production.nonterminal_mem_output_iff.2 ⟨l, r, rfl, hx⟩)
    exact ⟨l, r, hp, hcase, hpart l (.inl rfl), hpart r (.inr rfl)⟩

/-- Rewriting brings nothing into a form but what the start rule leads to. -/
theorem reach_of_mem_form {form : List _} (h : g.completable.Generates form)
    (ha : .nonterminal a ∈ form) : Relation.ReflTransGen g.Leads g.start a := by
  induction h generalizing a with
  | refl =>
    obtain rfl : a = g.start := by simpa using ha
    exact .refl
  | tail hform hstep ih =>
    obtain ⟨r, hr, hrewrites⟩ := hstep
    obtain ⟨p, hp, hcompletable, rfl⟩ := mem_rules_completable.1 hr
    obtain ⟨u, v, rfl, rfl⟩ := hrewrites.exists_parts
    simp only [List.mem_append] at ha
    rcases ha with (ha | ha) | ha
    · exact ih (by simp [ha])
    · have hhead := ih (a := p.head) (by simp [Production.rewriting])
      exact hhead.tail (leads_iff.2 ⟨p, hp, hcompletable, rfl, ha⟩)
    · exact ih (by simp [ha])

/-- What the start rule leads to stands in a form: each link of the chain is one step of rewriting. -/
theorem exists_form_of_reach (h : Relation.ReflTransGen g.Leads g.start a) :
    ∃ form, g.completable.Generates form ∧ .nonterminal a ∈ form := by
  induction h with
  | refl => exact ⟨[.nonterminal g.start], .refl _, List.mem_singleton_self _⟩
  | tail _ hleads ih =>
    obtain ⟨form, hform, ha⟩ := ih
    obtain ⟨p, hp, hcompletable, rfl, hb⟩ := leads_iff.1 hleads
    obtain ⟨u, v, rfl⟩ := List.append_of_mem ha
    have hrule : p.rewriting ∈ g.completable.rules :=
      mem_rules_completable.2 ⟨p, hp, hcompletable, rfl⟩
    have hstep := p.rewriting.rewrites_of_exists_parts u v
    rw [List.append_assoc, List.singleton_append] at hstep
    exact ⟨_, hform.tail ⟨_, hrule, hstep⟩, by simp [hb]⟩

/-- Both loops that mark rules come to their end. The rules marked as generating are those that derive a
string, those marked as reachable stand in a sentential form of productions that can be completed, and
those that are useful occur in a complete derivation from the start rule. -/
theorem marks_are_occurrences (g : Grammar) :
    Checked.usefulness g = .ok g.usefulness ∧
    (∀ a, g.usefulness.generating.has a = true ↔ ∃ w, g.Derives a w) ∧
    (∀ a, g.usefulness.reachable.has a = true ↔
      a = g.start ∨ ∃ form, g.completable.Generates form ∧ .nonterminal a ∈ form) ∧
    ∀ a, g.usefulness.isUseful a = true ↔ g.Occurs a := by
  refine ⟨Checked.usefulness_ok g, fun a => has_generating_iff, fun a => ?_,
    fun a => isUseful_iff_occurs⟩
  rw [has_reachable_iff]
  constructor
  · intro h
    exact .inr (exists_form_of_reach h)
  · rintro (rfl | ⟨form, hform, ha⟩)
    · exact .refl
    · exact reach_of_mem_form hform ha

end Grammar

end GrammarRepair
