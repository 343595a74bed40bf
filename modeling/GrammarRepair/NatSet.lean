/-!
Finite sets of natural numbers, held as the binary digits of one number, so that union and
intersection work on whole machine words.
-/

namespace GrammarRepair

structure NatSet where
  digits : Nat
  deriving DecidableEq, Repr

namespace NatSet

def empty : NatSet := ⟨0⟩

def has (s : NatSet) (i : Nat) : Bool := s.digits.testBit i

def insert (s : NatSet) (i : Nat) : NatSet := ⟨s.digits ||| 1 <<< i⟩

def union (s t : NatSet) : NatSet := ⟨s.digits ||| t.digits⟩

def inter (s t : NatSet) : NatSet := ⟨s.digits &&& t.digits⟩

def isEmpty (s : NatSet) : Bool := s.digits == 0

def ofList (xs : List Nat) : NatSet := xs.foldl insert empty

def below (s : NatSet) (bound : Nat) : List Nat := (List.range bound).filter s.has

@[simp] theorem has_empty (i : Nat) : empty.has i = false := by simp [empty, has]

@[simp] theorem has_insert (s : NatSet) (i j : Nat) :
    (s.insert i).has j = (s.has j || decide (i = j)) := by
  simp [insert, has, Nat.testBit_or, Nat.one_shiftLeft, Nat.testBit_two_pow]

@[simp] theorem has_union (s t : NatSet) (i : Nat) : (s.union t).has i = (s.has i || t.has i) := by
  simp [union, has, Nat.testBit_or]

@[simp] theorem has_inter (s t : NatSet) (i : Nat) : (s.inter t).has i = (s.has i && t.has i) := by
  simp [inter, has, Nat.testBit_and]

theorem ext_has {s t : NatSet} (h : ∀ i, s.has i = t.has i) : s = t := by
  cases s
  cases t
  simp only [NatSet.mk.injEq]
  exact Nat.eq_of_testBit_eq h

theorem isEmpty_iff (s : NatSet) : s.isEmpty = true ↔ ∀ i, s.has i = false := by
  constructor
  · intro h i
    have h0 : s.digits = 0 := by simpa [isEmpty] using h
    simp [has, h0]
  · intro h
    have : s = empty := ext_has fun i => by simp [h i]
    simp [this, isEmpty, empty]

theorem has_foldl_insert (xs : List Nat) (s : NatSet) (i : Nat) :
    (xs.foldl insert s).has i = (s.has i || decide (i ∈ xs)) := by
  induction xs generalizing s with
  | nil => simp
  | cons x xs ih =>
    rw [List.foldl_cons, ih, has_insert, Bool.or_assoc]
    by_cases h : x = i
    · simp [h]
    · have h' : ¬ i = x := fun e => h e.symm
      simp [h, h']

@[simp] theorem has_ofList (xs : List Nat) (i : Nat) : (ofList xs).has i = decide (i ∈ xs) := by
  simp [ofList, has_foldl_insert]

@[simp] theorem mem_below (s : NatSet) (bound i : Nat) :
    i ∈ s.below bound ↔ i < bound ∧ s.has i = true := by
  simp [below]

end NatSet

end GrammarRepair
