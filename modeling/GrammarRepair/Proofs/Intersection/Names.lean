import GrammarRepair.Intersection.Printer
import GrammarRepair.Proofs.Grammar.Tokens
import Mathlib.Data.List.Nodup
import Std.Data.String.ToNat

/-!
The names of the constituents. The text of a label is made of digits and of signs that are none, so
it can be read back; it has no comma, so the first and the last comma of a name divide it into its
three parts, whatever the name of the rule may be. Main statement: the names of different
constituents of an automaton are different, and none of them is that of the start rule.
-/

namespace GrammarRepair

/-- Where a sign first stands is the same in equal lists. -/
theorem append_cons_inj {α : Type} {c : α} {xs ys xs' ys' : List α} (hx : c ∉ xs) (hx' : c ∉ xs')
    (h : xs ++ c :: ys = xs' ++ c :: ys') : xs = xs' ∧ ys = ys' := by
  induction xs generalizing xs' with
  | nil =>
    cases xs' with
    | nil => exact ⟨rfl, List.tail_eq_of_cons_eq h⟩
    | cons x' xs' =>
      obtain ⟨rfl, -⟩ := List.cons.inj h
      exact absurd List.mem_cons_self hx'
  | cons x xs ih =>
    cases xs' with
    | nil =>
      obtain ⟨rfl, -⟩ := List.cons.inj h
      exact absurd List.mem_cons_self hx
    | cons x' xs' =>
      obtain ⟨rfl, hrest⟩ := List.cons.inj h
      obtain ⟨rfl, rfl⟩ := ih (mt (List.mem_cons_of_mem x) hx) (mt (List.mem_cons_of_mem x) hx')
        hrest
      exact ⟨rfl, rfl⟩

/-- Where a sign last stands is the same in equal lists. -/
theorem append_cons_inj_last {α : Type} {c : α} {xs ys xs' ys' : List α} (hy : c ∉ ys)
    (hy' : c ∉ ys') (h : xs ++ c :: ys = xs' ++ c :: ys') : xs = xs' ∧ ys = ys' := by
  have hreverse := congrArg List.reverse h
  simp only [List.reverse_append, List.reverse_cons, List.append_assoc, List.cons_append,
    List.nil_append] at hreverse
  obtain ⟨hys, hxs⟩ := append_cons_inj (by rwa [List.mem_reverse]) (by rwa [List.mem_reverse])
    hreverse
  exact ⟨List.reverse_injective hxs, List.reverse_injective hys⟩

/-- Numbers are written in digits. -/
theorem not_mem_toString {c : Char} (hc : c.isDigit = false) (n : Nat) :
    c ∉ (toString n).toList := by
  intro hmem
  rw [Nat.toString_eq_repr, Nat.toList_repr] at hmem
  have hdigit := Nat.isDigit_of_mem_toDigits (by decide) (by decide) hmem
  rw [hc] at hdigit
  cases hdigit

theorem toString_inj {m n : Nat} (h : (toString m).toList = (toString n).toList) : m = n :=
  Nat.repr_injective (String.toList_injective h)

namespace Label

theorem toList_text_plain (n : Nat) :
    (plain n).text.toList = 'q' :: '_' :: (toString n).toList := by
  simp [text]

theorem toList_text_grid (i j : Nat) : (grid i j).text.toList =
    'q' :: '_' :: ((toString i).toList ++ '/' :: (toString j).toList) := by
  simp [text]

/-- A label can be read off its text. -/
theorem text_injective : Function.Injective text := by
  intro l m h
  have hlist := congrArg String.toList h
  have hslash : ∀ n i j : Nat,
      (toString n).toList ≠ (toString i).toList ++ '/' :: (toString j).toList := by
    intro n i j heq
    have hmem : '/' ∈ (toString n).toList := by
      rw [heq]
      exact List.mem_append_right _ List.mem_cons_self
    exact not_mem_toString (by decide) n hmem
  cases l with
  | plain n =>
    cases m with
    | plain n' =>
      simp only [toList_text_plain, List.cons.injEq, true_and] at hlist
      rw [toString_inj hlist]
    | grid i j =>
      simp only [toList_text_plain, toList_text_grid, List.cons.injEq, true_and] at hlist
      exact absurd hlist (hslash n i j)
  | grid i j =>
    cases m with
    | plain n =>
      simp only [toList_text_plain, toList_text_grid, List.cons.injEq, true_and] at hlist
      exact absurd hlist.symm (hslash n i j)
    | grid i' j' =>
      simp only [toList_text_grid, List.cons.injEq, true_and] at hlist
      obtain ⟨hi, hj⟩ := append_cons_inj (not_mem_toString (by decide) i)
        (not_mem_toString (by decide) i') hlist
      rw [toString_inj hi, toString_inj hj]

theorem comma_not_mem_text (l : Label) : ',' ∉ l.text.toList := by
  have hnumber : ∀ n : Nat, ',' ∉ (toString n).toList := not_mem_toString (by decide)
  cases l with
  | plain n =>
    rw [toList_text_plain, List.mem_cons, List.mem_cons]
    rintro (h | h | h)
    · cases h
    · cases h
    · exact hnumber n h
  | grid i j =>
    rw [toList_text_grid, List.mem_cons, List.mem_cons, List.mem_append, List.mem_cons]
    rintro (h | h | h | h | h)
    · cases h
    · cases h
    · exact hnumber i h
    · cases h
    · exact hnumber j h

end Label

namespace Intersection

variable {g : Grammar} {ig : Intersection} {t t' : Constituent}

theorem toList_constituentText (ig : Intersection) (g : Grammar) (t : Constituent) :
    (ig.constituentText g t).toList = '[' :: ((ig.labelText t.source).toList ++
      ',' :: ((g.ruleName t.rule).toList ++ ',' :: ((ig.labelText t.target).toList ++ [']']))) := by
  simp [constituentText]

theorem labelText_inj (hlabels : ig.labels.toList.Nodup) {p q : Nat} (hp : p < ig.labels.size)
    (hq : q < ig.labels.size) (h : ig.labelText p = ig.labelText q) : p = q := by
  have hlabel := Label.text_injective h
  rw [Array.getD_eq_getD_getElem?, Array.getD_eq_getD_getElem?, Array.getElem?_eq_getElem hp,
    Array.getElem?_eq_getElem hq, Option.getD_some, Option.getD_some] at hlabel
  exact hlabels.getElem_inj_iff.1 hlabel

def Exists (ig : Intersection) (g : Grammar) (t : Constituent) : Prop :=
  t.source < ig.labels.size ∧ t.rule < g.ruleCount ∧ t.target < ig.labels.size

/-- A constituent can be read off its text, commas in the name of the rule or not. -/
theorem constituentText_inj (hlabels : ig.labels.toList.Nodup) (ht : ig.Exists g t)
    (ht' : ig.Exists g t') (h : ig.constituentText g t = ig.constituentText g t') : t = t' := by
  have hlist := congrArg String.toList h
  rw [toList_constituentText, toList_constituentText] at hlist
  have hcomma : ∀ q, ',' ∉ (ig.labelText q).toList ++ [']'] := by
    intro q hmem
    rcases List.mem_append.1 hmem with hmem | hmem
    · exact Label.comma_not_mem_text _ hmem
    · exact absurd (List.mem_singleton.1 hmem) (by decide)
  obtain ⟨hsource, hrest⟩ := append_cons_inj (Label.comma_not_mem_text _)
    (Label.comma_not_mem_text _) (List.cons.inj hlist).2
  obtain ⟨hrule, htarget⟩ := append_cons_inj_last (hcomma _) (hcomma _) hrest
  have hsource' := labelText_inj hlabels ht.1 ht'.1 (String.toList_injective hsource)
  have hrule' := Grammar.ruleName_inj ht.2.1 ht'.2.1 (String.toList_injective hrule)
  have htarget' := labelText_inj hlabels ht.2.2 ht'.2.2
    (String.toList_injective (List.append_cancel_right htarget))
  cases t
  cases t'
  rw [Constituent.mk.injEq]
  exact ⟨hsource', hrule', htarget'⟩

theorem name_of_lt {x : Nat} (hx : x < ig.nonterminals.size) :
    ig.name g x = ig.constituentText g ig.nonterminals[x] := by
  rw [name, name?, Array.getElem?_eq_getElem hx, Option.map_some, Option.getD_some]

theorem nodup_names (hlabels : ig.labels.toList.Nodup)
    (hnonterminals : ig.nonterminals.toList.Nodup)
    (hexists : ∀ t ∈ ig.nonterminals, ig.Exists g t) :
    ("^" :: (List.range ig.nonterminals.size).map (ig.name g)).Nodup := by
  refine List.nodup_cons.2 ⟨fun hmem => ?_, ?_⟩
  · obtain ⟨x, hx, hname⟩ := List.mem_map.1 hmem
    rw [name_of_lt (List.mem_range.1 hx)] at hname
    have hlist := congrArg String.toList hname
    rw [toList_constituentText] at hlist
    exact absurd (List.cons.inj hlist).1 (by decide)
  · refine List.Nodup.map_on (fun x hx y hy h => ?_) List.nodup_range
    rw [List.mem_range] at hx hy
    rw [name_of_lt hx, name_of_lt hy] at h
    have hsame := constituentText_inj hlabels (hexists _ (Array.getElem_mem hx))
      (hexists _ (Array.getElem_mem hy)) h
    exact hnonterminals.getElem_inj_iff.1 hsame

end Intersection

end GrammarRepair
