import Std.Data.HashMap
import Std.Data.HashSet

/-!
Lists without repetition in order of first appearance, with the position of each item at hand.
-/

namespace GrammarRepair

/-- Distinct items in the order in which they were first added. -/
structure Roster (α : Type) [BEq α] [Hashable α] where
  items : Array α
  positions : Std.HashMap α Nat
  positions_eq : ∀ (x : α) (i : Nat), positions[x]? = some i ↔ items[i]? = some x

namespace Roster

variable {α : Type} [BEq α] [Hashable α]

def position? (r : Roster α) (x : α) : Option Nat := r.positions[x]?

def contains (r : Roster α) (x : α) : Bool := (r.position? x).isSome

theorem position?_eq_some_iff (r : Roster α) (x : α) (i : Nat) :
    r.position? x = some i ↔ r.items[i]? = some x :=
  r.positions_eq x i

def toList (r : Roster α) : List α := r.items.toList

theorem nodup_toList (r : Roster α) : r.toList.Nodup := by
  rw [List.Nodup, List.pairwise_iff_getElem]
  intro i j hi hj hij heq
  have hi' : i < r.items.size := by simpa [toList] using hi
  have hj' : j < r.items.size := by simpa [toList] using hj
  have h1 : r.items[i]? = some r.items[i] := by simp [hi']
  have h2 : r.items[j]? = some r.items[i] := by
    have heq' : r.items[i] = r.items[j] := by simpa [toList] using heq
    simp [hj', heq']
  have e1 := (r.position?_eq_some_iff _ _).2 h1
  have e2 := (r.position?_eq_some_iff _ _).2 h2
  rw [e1] at e2
  exact absurd (Option.some.inj e2) (Nat.ne_of_lt hij)

variable [LawfulBEq α]

def empty : Roster α where
  items := #[]
  positions := ∅
  positions_eq := by simp

def add (r : Roster α) (x : α) : Roster α :=
  match h : r.positions[x]? with
  | some _ => r
  | none =>
    { items := r.items.push x
      positions := r.positions.insert x r.items.size
      positions_eq := by
        intro y i
        have hlt : ∀ (z : α) (j : Nat), r.items[j]? = some z → j < r.items.size := by
          intro z j hz
          exact (Array.getElem?_eq_some_iff.1 hz).1
        rw [Std.HashMap.getElem?_insert, Array.getElem?_push]
        by_cases hxy : (x == y) = true
        · have hxy' : x = y := eq_of_beq hxy
          subst hxy'
          rw [if_pos hxy]
          by_cases hi : i = r.items.size
          · simp [hi]
          · rw [if_neg hi]
            constructor
            · intro h'
              exact absurd (Option.some.inj h').symm hi
            · intro h'
              have := (r.positions_eq x i).2 h'
              rw [h] at this
              cases this
        · rw [if_neg hxy, r.positions_eq y i]
          by_cases hi : i = r.items.size
          · rw [if_pos hi]
            constructor
            · intro h'
              exact absurd hi (Nat.ne_of_lt (hlt y i h'))
            · intro h'
              have : x = y := Option.some.inj h'
              exact absurd (by simp [this]) hxy
          · rw [if_neg hi] }

def ofList (xs : List α) : Roster α := xs.foldl add empty

theorem mem_add (r : Roster α) (x y : α) : y ∈ (r.add x).toList ↔ y ∈ r.toList ∨ y = x := by
  unfold add
  split
  · next i h =>
    have hx : r.items[i]? = some x := (r.positions_eq x i).1 h
    have hmem : x ∈ r.toList := by
      simpa [toList] using Array.mem_of_getElem? hx
    constructor
    · exact Or.inl
    · rintro (h' | rfl)
      · exact h'
      · exact hmem
  · simp [toList]

theorem mem_foldl_add (xs : List α) (r : Roster α) (y : α) :
    y ∈ (xs.foldl add r).toList ↔ y ∈ r.toList ∨ y ∈ xs := by
  induction xs generalizing r with
  | nil => simp
  | cons x xs ih => rw [List.foldl_cons, ih, mem_add, List.mem_cons, or_assoc]

theorem mem_ofList (xs : List α) (y : α) : y ∈ (ofList xs).toList ↔ y ∈ xs := by
  rw [ofList, mem_foldl_add]
  simp [empty, toList]

theorem toList_add (r : Roster α) (x : α) :
    (r.add x).toList = if r.toList.contains x then r.toList else r.toList ++ [x] := by
  unfold add
  split
  · next i h =>
    have hx : r.items[i]? = some x := (r.positions_eq x i).1 h
    have hmem : x ∈ r.toList := by
      simpa [toList] using Array.mem_of_getElem? hx
    rw [if_pos (List.contains_iff_mem.2 hmem)]
  · next h =>
    have hnot : ¬ r.toList.contains x = true := by
      intro hmem
      obtain ⟨i, hi⟩ := List.mem_iff_getElem?.1 (List.contains_iff_mem.1 hmem)
      have hpos := (r.positions_eq x i).2 (by simpa [toList] using hi)
      rw [h] at hpos
      cases hpos
    rw [if_neg hnot]
    simp [toList]

end Roster

/-- The items of a list in order of first appearance. -/
def distinct {α : Type} [BEq α] [Hashable α] [LawfulBEq α] (xs : List α) : List α :=
  (Roster.ofList xs).toList

@[simp] theorem mem_distinct {α : Type} [BEq α] [Hashable α] [LawfulBEq α] (xs : List α) (x : α) :
    x ∈ distinct xs ↔ x ∈ xs :=
  Roster.mem_ofList xs x

theorem nodup_distinct {α : Type} [BEq α] [Hashable α] [LawfulBEq α] (xs : List α) :
    (distinct xs).Nodup :=
  Roster.nodup_toList _

theorem distinct_eq_foldl {α : Type} [BEq α] [Hashable α] [LawfulBEq α] (xs : List α) :
    distinct xs = xs.foldl (fun seen x => if seen.contains x then seen else seen ++ [x]) [] := by
  have h : ∀ r : Roster α, (xs.foldl Roster.add r).toList =
      xs.foldl (fun seen x => if seen.contains x then seen else seen ++ [x]) r.toList := by
    induction xs with
    | nil => exact fun r => rfl
    | cons x xs ih =>
      intro r
      rw [List.foldl_cons, ih, Roster.toList_add, List.foldl_cons]
  exact h Roster.empty

theorem distinct_of_nodup {α : Type} [BEq α] [Hashable α] [LawfulBEq α] {xs : List α}
    (h : xs.Nodup) : distinct xs = xs := by
  have hall : ∀ seen : List α, (seen ++ xs).Nodup →
      xs.foldl (fun seen x => if seen.contains x then seen else seen ++ [x]) seen = seen ++ xs := by
    clear h
    induction xs with
    | nil => exact fun seen _ => (List.append_nil seen).symm
    | cons x xs ih =>
      intro seen h
      have hnew : ¬ seen.contains x = true := fun hmem =>
        (List.nodup_append.1 h).2.2 x (List.contains_iff_mem.1 hmem) x List.mem_cons_self rfl
      rw [List.append_cons] at h ⊢
      rw [List.foldl_cons, if_neg hnew, ih _ h]
  rw [distinct_eq_foldl, hall [] h, List.nil_append]

def allNew {α : Type} [BEq α] [Hashable α] (seen : Std.HashSet α) : List α → Bool
  | [] => true
  | x :: xs => !seen.contains x && allNew (seen.insert x) xs

theorem allNew_iff {α : Type} [BEq α] [Hashable α] [LawfulBEq α] (seen : Std.HashSet α)
    (xs : List α) : allNew seen xs = true ↔ xs.Nodup ∧ ∀ x ∈ xs, x ∉ seen := by
  induction xs generalizing seen with
  | nil => simp [allNew]
  | cons x xs ih =>
    simp only [allNew, Bool.and_eq_true, ih, List.nodup_cons, List.forall_mem_cons,
      Std.HashSet.mem_insert, Bool.not_eq_true', not_or]
    constructor
    · rintro ⟨hx, hxs, hall⟩
      refine ⟨⟨fun hmem => ?_, hxs⟩, ?_, fun y hy => (hall y hy).2⟩
      · exact absurd (by simp) (hall x hmem).1
      · rw [Std.HashSet.mem_iff_contains, hx]
        exact Bool.false_ne_true
    · rintro ⟨⟨hx, hxs⟩, hseen, hall⟩
      rw [Std.HashSet.mem_iff_contains, Bool.not_eq_true] at hseen
      refine ⟨hseen, hxs, fun y hy => ⟨?_, hall y hy⟩⟩
      simp only [beq_iff_eq]
      rintro rfl
      exact hx hy

def allDistinct {α : Type} [BEq α] [Hashable α] (xs : List α) : Bool := allNew ∅ xs

theorem allDistinct_iff {α : Type} [BEq α] [Hashable α] [LawfulBEq α] (xs : List α) :
    allDistinct xs = true ↔ xs.Nodup := by
  simp [allDistinct, allNew_iff]

end GrammarRepair
