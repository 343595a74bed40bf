import GrammarRepair.Proofs.Chart.Fill
import GrammarRepair.Proofs.EditDistance.Ball
import GrammarRepair.Proofs.Grammar.Tokens
import GrammarRepair.Proofs.Intersection.Language
import GrammarRepair.Repair.Basic
import Mathlib.Order.Bounds.Basic

/-!
The search for the nearest sentence. A ball holds a sentence exactly when some sentence is within
its radius, however that is found out, so the first radius whose ball holds one is the least edit
distance from the input to a sentence.
-/

namespace GrammarRepair

namespace Grammar

def distancesFrom (g : Grammar) (input : List Nat) : Set Nat :=
  {n | ∃ v, g.IsSentence v ∧ editDistance input v = n}

end Grammar

namespace RepairSettings

variable {s : RepairSettings} {g : Grammar} {input : List Nat} {d r steps : Nat}

theorem value_tryRadius_iff : (s.tryRadius g input r).value = true ↔
    ∃ v, g.IsSentence v ∧ (s.ballAround g input r).value.accepts v = true := by
  unfold tryRadius
  cases s.strategy with
  | chart => exact nonempty_iff
  | intersection => exact isOk_intersect_iff _ _

theorem accepts_ballAround_iff (halphabet : s.alphabet = none) {v : List Nat}
    (hv : g.IsSentence v) :
    (s.ballAround g input r).value.accepts v = true ↔ editDistance input v ≤ r := by
  have hmem : ∀ t ∈ v, t ∈ s.alphabet.getD (List.range g.tokenCount ++ input) := by
    intro t ht
    rw [halphabet, Option.getD_none, List.mem_append, List.mem_range]
    exact .inl (hv.lt_tokenCount t ht)
  exact accepts_ball_iff_editDistance_le hmem

theorem value_tryRadius_iff_exists_le (halphabet : s.alphabet = none) :
    (s.tryRadius g input r).value = true ↔ ∃ n ∈ g.distancesFrom input, n ≤ r := by
  rw [value_tryRadius_iff]
  constructor
  · rintro ⟨v, hv, haccepts⟩
    exact ⟨_, ⟨v, hv, rfl⟩, (accepts_ballAround_iff halphabet hv).1 haccepts⟩
  · rintro ⟨n, ⟨v, hv, rfl⟩, hle⟩
    exact ⟨v, hv, (accepts_ballAround_iff halphabet hv).2 hle⟩

theorem value_searchFrom_succ : (s.searchFrom g input (steps + 1) r).value =
    if (s.tryRadius g input r).value then some r
    else (s.searchFrom g input steps (r + 1)).value := by
  rw [searchFrom, Traced.value_bind]
  split <;> rfl

/-- The search stops at the first radius whose ball holds a sentence. -/
theorem searchFrom_eq_some_iff : (s.searchFrom g input steps r).value = some d ↔
    r ≤ d ∧ d < r + steps ∧ (s.tryRadius g input d).value = true ∧
      ∀ m, r ≤ m → m < d → (s.tryRadius g input m).value = false := by
  induction steps generalizing r with
  | zero =>
    have hnone : (s.searchFrom g input 0 r).value = none := rfl
    rw [hnone]
    constructor
    · intro h
      cases h
    · intro h
      omega
  | succ steps ih =>
    rw [value_searchFrom_succ]
    by_cases htry : (s.tryRadius g input r).value = true
    · rw [if_pos htry, Option.some.injEq]
      constructor
      · rintro rfl
        exact ⟨Nat.le_refl r, by omega, htry, fun m hm hlt => by omega⟩
      · rintro ⟨hle, -, -, hfirst⟩
        by_contra hne
        have hfalse := hfirst r (Nat.le_refl r) (by omega)
        rw [htry] at hfalse
        cases hfalse
    · rw [if_neg htry, ih]
      constructor
      · rintro ⟨hle, hlt, hd, hfirst⟩
        refine ⟨by omega, by omega, hd, fun m hm hlt => ?_⟩
        by_cases hmr : m = r
        · subst hmr
          exact Bool.eq_false_of_not_eq_true htry
        · exact hfirst m (by omega) hlt
      · rintro ⟨hle, hlt, hd, hfirst⟩
        have hne : r ≠ d := by
          rintro rfl
          exact htry hd
        exact ⟨by omega, by omega, hd, fun m hm hlt => hfirst m (by omega) hlt⟩

theorem searchFrom_eq_none_iff : (s.searchFrom g input steps r).value = none ↔
    ∀ m, r ≤ m → m < r + steps → (s.tryRadius g input m).value = false := by
  induction steps generalizing r with
  | zero =>
    refine iff_of_true rfl fun m hm hlt => ?_
    omega
  | succ steps ih =>
    rw [value_searchFrom_succ]
    by_cases htry : (s.tryRadius g input r).value = true
    · rw [if_pos htry]
      refine iff_of_false (by simp) fun h => ?_
      rw [h r (Nat.le_refl r) (by omega)] at htry
      cases htry
    · rw [if_neg htry, ih]
      constructor
      · intro h m hm hlt
        by_cases hmr : m = r
        · subst hmr
          exact Bool.eq_false_of_not_eq_true htry
        · exact h m (by omega) (by omega)
      · intro h m hm hlt
        exact h m (by omega) (by omega)

theorem nearest_eq_some_iff (halphabet : s.alphabet = none) :
    (s.nearest g input).value = some d ↔
      IsLeast (g.distancesFrom input) d ∧ d ≤ s.maxRadius := by
  rw [nearest, searchFrom_eq_some_iff]
  simp only [value_tryRadius_iff_exists_le halphabet, ← Bool.not_eq_true]
  constructor
  · rintro ⟨-, hlt, ⟨n, hn, hle⟩, hfirst⟩
    have hleast : ∀ m ∈ g.distancesFrom input, d ≤ m := by
      intro m hm
      by_contra hgt
      exact hfirst m (Nat.zero_le m) (by omega) ⟨m, hm, Nat.le_refl m⟩
    obtain rfl : n = d := Nat.le_antisymm hle (hleast n hn)
    exact ⟨⟨hn, hleast⟩, by omega⟩
  · rintro ⟨⟨hd, hleast⟩, hle⟩
    refine ⟨Nat.zero_le d, by omega, ⟨d, hd, Nat.le_refl d⟩, ?_⟩
    rintro m - hlt ⟨n, hn, hnm⟩
    have hdn : d ≤ n := hleast hn
    omega

theorem nearest_eq_none_iff (halphabet : s.alphabet = none) :
    (s.nearest g input).value = none ↔ ∀ n ∈ g.distancesFrom input, s.maxRadius < n := by
  rw [nearest, searchFrom_eq_none_iff]
  simp only [value_tryRadius_iff_exists_le halphabet, ← Bool.not_eq_true]
  constructor
  · intro h n hn
    by_contra hle
    exact h n (Nat.zero_le n) (by omega) ⟨n, hn, Nat.le_refl n⟩
  · rintro h m - hlt ⟨n, hn, hnm⟩
    have hmax := h n hn
    omega

/-- The outcome of the search, without the events on the way. -/
theorem led_eq {w : Width} {names foreign : List String}
    (hinput : g.tokenIndices w names = .ok (input, foreign)) :
    ∃ t, s.led g w names = .ok t ∧ t.value = match (s.nearest g input).value with
      | some d => .found d
      | none => .upperBoundExceeded s.maxRadius := by
  rw [led, hinput]
  refine ⟨_, rfl, ?_⟩
  rw [Traced.value_bind]
  cases (s.nearest g input).value <;> rfl

/-- The strategy makes no difference to what is found. -/
theorem nearest_strategy (halphabet : s.alphabet = none) (strategy : Strategy) :
    ({ s with strategy }.nearest g input).value = (s.nearest g input).value := by
  apply Option.ext
  intro d
  rw [nearest_eq_some_iff halphabet]
  exact nearest_eq_some_iff (s := { s with strategy }) halphabet

end RepairSettings

open RepairSettings

/-- With all tokens to choose from, the search finds the least edit distance to a sentence if that
is not beyond the greatest radius, and reports the greatest radius as exceeded otherwise. The
strategy makes no difference. -/
theorem led_is_least_distance (s : RepairSettings) (g : Grammar) (w : Width)
    {names foreign : List String} {input : List Nat} (halphabet : s.alphabet = none)
    (hinput : g.tokenIndices w names = .ok (input, foreign)) :
    ∃ t, s.led g w names = .ok t ∧
      (∀ d, t.value = .found d ↔ IsLeast (g.distancesFrom input) d ∧ d ≤ s.maxRadius) ∧
      (∀ bound, t.value = .upperBoundExceeded bound ↔
        bound = s.maxRadius ∧ ¬ ∃ v, g.IsSentence v ∧ editDistance input v ≤ s.maxRadius) ∧
      ∀ strategy, ∃ t', { s with strategy }.led g w names = .ok t' ∧ t'.value = t.value := by
  obtain ⟨t, ht, hvalue⟩ := led_eq (s := s) hinput
  refine ⟨t, ht, fun d => ?_, fun bound => ?_, fun strategy => ?_⟩
  · rw [hvalue, ← nearest_eq_some_iff halphabet]
    cases (s.nearest g input).value <;> simp
  · have hnone : (¬ ∃ v, g.IsSentence v ∧ editDistance input v ≤ s.maxRadius) ↔
        (s.nearest g input).value = none := by
      rw [nearest_eq_none_iff halphabet]
      constructor
      · rintro h n ⟨v, hv, rfl⟩
        by_contra hle
        exact h ⟨v, hv, by omega⟩
      · rintro h ⟨v, hv, hle⟩
        have hlt := h _ ⟨v, hv, rfl⟩
        omega
    rw [hvalue, hnone]
    cases (s.nearest g input).value <;> simp [eq_comm]
  · obtain ⟨t', ht', hvalue'⟩ := led_eq (s := { s with strategy }) hinput
    refine ⟨t', ht', ?_⟩
    rw [hvalue', hvalue, nearest_strategy halphabet]

theorem led_of_missing_token :
    RepairSettings.default.alphabet = none ∧
      twoTokens.tokenIndices .w32 ["a"] = .ok ([0], []) ∧
      ∃ t, RepairSettings.default.led twoTokens .w32 ["a"] = .ok t ∧ t.value = .found 1 := by
  have hinput : twoTokens.tokenIndices .w32 ["a"] = .ok ([0], []) := by decide +kernel
  obtain ⟨t, ht, hfound, -, -⟩ := led_is_least_distance .default twoTokens .w32 rfl hinput
  have hleast : IsLeast (twoTokens.distancesFrom [0]) 1 := by
    refine ⟨⟨[0, 1], isSentence_twoTokens_iff.2 rfl, by decide⟩, ?_⟩
    rintro n ⟨v, hv, rfl⟩
    obtain rfl := isSentence_twoTokens_iff.1 hv
    decide
  exact ⟨rfl, hinput, t, ht, (hfound 1).2 ⟨hleast, by decide⟩⟩

end GrammarRepair
