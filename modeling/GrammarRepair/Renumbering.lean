/-!
Dense renumbering: of the numbers below a bound some are kept, and each kept one is told its place
among the kept ones.
-/

namespace GrammarRepair

structure Renumbering where
  kept : Array Nat
  table : Array (Option Nat)
  deriving Repr

namespace Renumbering

def step (keep : Nat → Bool) (r : Renumbering) (x : Nat) : Renumbering :=
  if keep x then ⟨r.kept.push x, r.table.push (some r.kept.size)⟩
  else ⟨r.kept, r.table.push none⟩

def ofKeep (size : Nat) (keep : Nat → Bool) : Renumbering :=
  (List.range size).foldl (step keep) ⟨#[], #[]⟩

def new? (r : Renumbering) (x : Nat) : Option Nat := r.table[x]?.join

variable (keep : Nat → Bool)

theorem ofKeep_succ (size : Nat) :
    ofKeep (size + 1) keep = step keep (ofKeep size keep) size := by
  simp [ofKeep, List.range_succ]

theorem size_table (size : Nat) : (ofKeep size keep).table.size = size := by
  induction size with
  | zero => rfl
  | succ n ih =>
    rw [ofKeep_succ, step]
    split <;> simp [ih]

theorem kept_eq (size : Nat) :
    (ofKeep size keep).kept.toList = (List.range size).filter keep := by
  induction size with
  | zero => rfl
  | succ n ih =>
    rw [ofKeep_succ, step, List.range_succ, List.filter_append]
    split <;> rename_i h <;> simp [ih, h]

theorem size_kept_le (size : Nat) : (ofKeep size keep).kept.size ≤ size := by
  rw [← Array.length_toList, kept_eq]
  simpa using List.length_filter_le keep (List.range size)

/-- New numbers and kept ones are inverse to each other. -/
theorem new?_eq_some_iff (size x i : Nat) :
    (ofKeep size keep).new? x = some i ↔ (ofKeep size keep).kept[i]? = some x := by
  induction size generalizing x i with
  | zero => simp [ofKeep, new?]
  | succ n ih =>
    have hsize := size_table keep n
    have hkept : ∀ j y : Nat, (ofKeep n keep).kept[j]? = some y → y < n := by
      intro j y hy
      have : y ∈ (ofKeep n keep).kept.toList := by simpa using Array.mem_of_getElem? hy
      rw [kept_eq] at this
      simpa using (List.mem_filter.1 this).1
    rw [ofKeep_succ, step]
    have ih' := ih x i
    simp only [new?] at ih' ⊢
    split
    · rw [Array.getElem?_push, Array.getElem?_push, hsize]
      by_cases hx : x = n
      · subst hx
        rw [if_pos rfl]
        by_cases hi : i = (ofKeep x keep).kept.size
        · simp [hi]
        · rw [if_neg hi]
          constructor
          · intro h
            exact absurd (by simpa using h : (ofKeep x keep).kept.size = i).symm hi
          · intro h
            exact absurd (hkept _ _ h) (Nat.lt_irrefl _)
      · rw [if_neg hx, ih']
        by_cases hi : i = (ofKeep n keep).kept.size
        · rw [if_pos hi]
          constructor
          · intro h
            have := (Array.getElem?_eq_some_iff.1 h).1
            omega
          · intro h
            exact absurd (Option.some.inj h).symm hx
        · rw [if_neg hi]
    · rw [Array.getElem?_push, hsize]
      by_cases hx : x = n
      · subst hx
        rw [if_pos rfl]
        constructor
        · intro h
          simp at h
        · intro h
          exact absurd (hkept _ _ h) (Nat.lt_irrefl _)
      · rw [if_neg hx, ih']

theorem new?_isSome_iff (size x : Nat) :
    ((ofKeep size keep).new? x).isSome ↔ x < size ∧ keep x = true := by
  have hmem : x ∈ (ofKeep size keep).kept.toList ↔ x < size ∧ keep x = true := by
    rw [kept_eq]
    simp
  rw [← hmem, Option.isSome_iff_exists]
  constructor
  · rintro ⟨i, hi⟩
    simpa using Array.mem_of_getElem? ((new?_eq_some_iff keep size x i).1 hi)
  · intro h
    obtain ⟨i, hi, hx⟩ := List.mem_iff_getElem.1 h
    refine ⟨i, (new?_eq_some_iff keep size x i).2 ?_⟩
    rw [Array.getElem?_eq_some_iff]
    exact ⟨by simpa using hi, by simpa using hx⟩

theorem new?_lt {size x i : Nat} (h : (ofKeep size keep).new? x = some i) :
    i < (ofKeep size keep).kept.size :=
  (Array.getElem?_eq_some_iff.1 ((new?_eq_some_iff keep size x i).1 h)).1

/-- New numbers are in the order of the old ones. -/
theorem new?_strictMono {size x y i j : Nat} (hx : (ofKeep size keep).new? x = some i)
    (hy : (ofKeep size keep).new? y = some j) (h : x < y) : i < j := by
  have hsorted : (ofKeep size keep).kept.toList.Pairwise (· < ·) := by
    rw [kept_eq]
    exact List.pairwise_lt_range.filter _
  obtain ⟨hi, ei⟩ := Array.getElem?_eq_some_iff.1 ((new?_eq_some_iff keep size x i).1 hx)
  obtain ⟨hj, ej⟩ := Array.getElem?_eq_some_iff.1 ((new?_eq_some_iff keep size y j).1 hy)
  rcases Nat.lt_trichotomy i j with hlt | heq | hgt
  · exact hlt
  · subst heq
    omega
  · have := List.pairwise_iff_getElem.1 hsorted j i (by simpa using hj) (by simpa using hi) hgt
    simp only [Array.getElem_toList, ei, ej] at this
    omega

end Renumbering

end GrammarRepair
