import GrammarRepair.Grammar.Derivation
import GrammarRepair.Grammar.Tokens
import GrammarRepair.Proofs.MapState
import Mathlib.Data.List.Nodup

/-!
The numbers of an input's tokens. Main statements: the names of a grammar's tokens can always be
numbered, by their places among the grammar's tokens, other names get numbers that no rule derives,
and different rules and tokens have different names.
-/

namespace GrammarRepair

namespace Grammar

variable {g : Grammar} {w : Width} {name : String} {foreign foreign' : List String} {token : Nat}

def tokenList (g : Grammar) : List String := g.tokenNames.toList

/-- What a rule derives are tokens of the grammar. -/
theorem Derives.lt_tokenCount {a : Nat} {v : List Nat} (h : g.Derives a v) :
    ∀ t ∈ v, t < g.tokenCount := by
  induction h with
  | token h =>
    intro t ht
    obtain rfl := List.mem_singleton.1 ht
    exact (g.inRange _ h).2
  | pair h hv hw ihv ihw =>
    intro t ht
    rcases List.mem_append.1 ht with ht | ht
    · exact ihv t ht
    · exact ihw t ht

theorem tokenIndex?_eq (g : Grammar) (name : String) :
    g.tokenIndex? name = g.tokenList.idxOf? name := by
  rw [tokenIndex?, tokenList, ← List.idxOf?_toArray]

theorem tokenIndex?_of_mem (h : name ∈ g.tokenList) :
    g.tokenIndex? name = some (g.tokenList.idxOf name) := by
  rw [tokenIndex?_eq, List.idxOf_eq_getD_idxOf?]
  cases hidx : g.tokenList.idxOf? name with
  | none => exact absurd h (List.idxOf?_eq_none_iff.1 hidx)
  | some i => rfl

theorem tokenIndex?_of_not_mem (h : name ∉ g.tokenList) : g.tokenIndex? name = none := by
  rw [tokenIndex?_eq]
  exact List.idxOf?_eq_none_iff.2 h

/-- The number of a token's name is its place; other numbers are beyond those of the tokens. -/
def IsNumber (g : Grammar) (name : String) (token : Nat) : Prop :=
  (name ∈ g.tokenList ∧ token = g.tokenList.idxOf name) ∨
    (name ∉ g.tokenList ∧ g.tokenCount ≤ token)

theorem numberName_of_mem (h : name ∈ g.tokenList) :
    g.numberName w foreign name = .ok (g.tokenList.idxOf name, foreign) := by
  rw [numberName, tokenIndex?_of_mem h]

theorem isNumber_of_numberName (h : g.numberName w foreign name = .ok (token, foreign')) :
    g.IsNumber name token := by
  by_cases hname : name ∈ g.tokenList
  · rw [numberName_of_mem hname] at h
    cases h
    exact .inl ⟨hname, rfl⟩
  · rw [numberName, tokenIndex?_of_not_mem hname] at h
    generalize (if name ∈ foreign then foreign else foreign ++ [name]) = met at h
    simp only at h
    split at h
    · cases h
      exact .inr ⟨hname, Nat.le_add_right _ _⟩
    · cases h

theorem forall₂_of_numberNames {names : List String} {tokens : List Nat}
    (h : g.numberNames w foreign names = .ok (tokens, foreign')) :
    List.Forall₂ g.IsNumber names tokens := by
  induction names generalizing tokens foreign with
  | nil =>
    cases h
    exact .nil
  | cons name names ih =>
    rw [numberNames] at h
    split at h
    · cases h
    · next token foreign₁ hname =>
      split at h
      · cases h
      · next rest foreign₂ hnames =>
        cases h
        exact .cons (isNumber_of_numberName hname) (ih hnames)

theorem numberNames_of_mem {names : List String} (h : ∀ name ∈ names, name ∈ g.tokenList) :
    g.numberNames w foreign names = .ok (names.map g.tokenList.idxOf, foreign) := by
  induction names with
  | nil => rfl
  | cons name names ih =>
    rw [numberNames, numberName_of_mem (h name (by simp))]
    simp only
    rw [ih fun name hname => h name (List.mem_cons_of_mem _ hname)]
    rfl

theorem tokenIndices_of_mem {names : List String} (h : ∀ name ∈ names, name ∈ g.tokenList) :
    g.tokenIndices w names = .ok (names.map g.tokenList.idxOf, []) :=
  numberNames_of_mem h

/-- If the numbers are those of tokens, then the names are the names of these tokens. -/
theorem mem_tokenList_of_tokenIndices {names : List String} {tokens : List Nat}
    (h : g.tokenIndices w names = .ok (tokens, foreign)) (hlt : ∀ t ∈ tokens, t < g.tokenCount) :
    (∀ name ∈ names, name ∈ g.tokenList) ∧ tokens = names.map g.tokenList.idxOf := by
  have hnumbers := forall₂_of_numberNames h
  have hmem : ∀ name ∈ names, name ∈ g.tokenList := by
    intro name hname
    obtain ⟨t, ht, hnumber⟩ := exists_of_mem_left hnumbers hname
    rcases hnumber with ⟨hmem, -⟩ | ⟨-, hle⟩
    · exact hmem
    · have htlt := hlt t ht
      omega
  refine ⟨hmem, ?_⟩
  rw [tokenIndices_of_mem hmem] at h
  cases h
  rfl

theorem ruleName_inj {a b : Nat} (ha : a < g.ruleCount) (hb : b < g.ruleCount)
    (h : g.ruleName a = g.ruleName b) : a = b := by
  rw [ruleName, ruleName, Array.getD_eq_getD_getElem?, Array.getD_eq_getD_getElem?,
    Array.getElem?_eq_getElem ha, Array.getElem?_eq_getElem hb, Option.getD_some,
    Option.getD_some] at h
  exact g.nodup_ruleNames.getElem_inj_iff.1 h

theorem tokenText_of_lt {t : Nat} (ht : t < g.tokenCount) :
    g.tokenNames[t]? = some (g.tokenText t) := by
  have hname : g.tokenNames[t]? = some g.tokenNames[t] := Array.getElem?_eq_getElem ht
  rw [tokenText, hname]

theorem tokenText_inj {t t' : Nat} (ht : t < g.tokenCount) (ht' : t' < g.tokenCount)
    (h : g.tokenText t = g.tokenText t') : t = t' := by
  have hnames : g.tokenNames.toList[t]? = g.tokenNames.toList[t']? := by
    rw [Array.getElem?_toList, Array.getElem?_toList, tokenText_of_lt ht, tokenText_of_lt ht', h]
  exact (List.getElem?_inj ht g.nodup_tokenNames).1 hnames

theorem map_tokenText_inj {v v' : List Nat} (hv : ∀ t ∈ v, t < g.tokenCount)
    (hv' : ∀ t ∈ v', t < g.tokenCount) (h : v.map g.tokenText = v'.map g.tokenText) : v = v' := by
  induction v generalizing v' with
  | nil => exact (List.map_eq_nil_iff.1 h.symm).symm
  | cons t v ih =>
    obtain ⟨t', u, rfl, ht, hu⟩ := List.map_eq_cons_iff.1 h.symm
    rw [List.forall_mem_cons] at hv hv'
    rw [tokenText_inj hv.1 hv'.1 ht.symm, ih hv.2 hv'.2 hu.symm]

end Grammar

end GrammarRepair
