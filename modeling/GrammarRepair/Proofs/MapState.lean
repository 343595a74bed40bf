import GrammarRepair.MapState
import Mathlib.Data.List.Forall2
import Mathlib.Logic.Relation

/-!
Lists that are related item by item, and what mapping with a state relates. Main statement: if every
step relates an item to its image, and no later step spoils that, then the whole run relates the two
lists.
-/

namespace GrammarRepair

variable {α β σ : Type}

theorem exists_of_mem_left {R : α → β → Prop} {xs : List α} {ys : List β} {x : α}
    (h : List.Forall₂ R xs ys) (hx : x ∈ xs) : ∃ y ∈ ys, R x y := by
  induction h with
  | nil => cases hx
  | cons hr h ih =>
    rcases List.mem_cons.1 hx with rfl | hx
    · exact ⟨_, by simp, hr⟩
    · obtain ⟨y, hy, hxy⟩ := ih hx
      exact ⟨y, List.mem_cons_of_mem _ hy, hxy⟩

theorem exists_of_mem_right {R : α → β → Prop} {xs : List α} {ys : List β} {y : β}
    (h : List.Forall₂ R xs ys) (hy : y ∈ ys) : ∃ x ∈ xs, R x y :=
  exists_of_mem_left (R := flip R) h.flip hy

theorem forall₂_imp_of_mem {R S : α → β → Prop} {xs : List α} {ys : List β}
    (h : List.Forall₂ R xs ys) (himp : ∀ x ∈ xs, ∀ y ∈ ys, R x y → S x y) :
    List.Forall₂ S xs ys := by
  induction h with
  | nil => exact .nil
  | cons hr h ih =>
    refine .cons (himp _ (by simp) _ (by simp) hr) (ih fun x hx y hy => ?_)
    exact himp x (List.mem_cons_of_mem _ hx) y (List.mem_cons_of_mem _ hy)

theorem forall₂_comp {γ : Type} {R : α → β → Prop} {S : β → γ → Prop} {xs : List α} {ys : List β}
    {zs : List γ} (h : List.Forall₂ R xs ys) (h' : List.Forall₂ S ys zs) :
    List.Forall₂ (Relation.Comp R S) xs zs := by
  induction h generalizing zs with
  | nil =>
    cases h'
    exact .nil
  | cons hr h ih =>
    cases h' with
    | cons hs h' => exact .cons ⟨_, hr, hs⟩ (ih h')

theorem map_eq_of_forall₂ {γ : Type} {R : α → β → Prop} {f : α → γ} {g : β → γ} {xs : List α}
    {ys : List β} (h : List.Forall₂ R xs ys) (hR : ∀ x y, R x y → g y = f x) :
    ys.map g = xs.map f := by
  induction h with
  | nil => rfl
  | cons hr h ih => exact congrArg₂ List.cons (hR _ _ hr) ih

variable {f : α → σ → β × σ}

theorem getElem?_mapState (xs : List α) (s : σ) (i : Nat) :
    (mapState f xs s).1[i]? = xs[i]?.map fun x => (f x (mapState f (xs.take i) s).2).1 := by
  induction xs generalizing s i with
  | nil => rfl
  | cons x xs ih =>
    cases i with
    | zero => rfl
    | succ i => exact ih (f x s).2 i

theorem mapState_eq_map {g : α → β} {xs : List α} {s : σ} (h : ∀ x ∈ xs, f x s = (g x, s)) :
    mapState f xs s = (xs.map g, s) := by
  induction xs with
  | nil => rfl
  | cons x xs ih =>
    rw [mapState_cons, h x List.mem_cons_self, ih fun y hy => h y (List.mem_cons_of_mem x hy),
      List.map_cons]

theorem mapState_append (xs ys : List α) (s : σ) :
    mapState f (xs ++ ys) s = ((mapState f xs s).1 ++ (mapState f ys (mapState f xs s).2).1,
      (mapState f ys (mapState f xs s).2).2) := by
  induction xs generalizing s with
  | nil => rfl
  | cons x xs ih => rw [List.cons_append, mapState_cons, ih, mapState_cons, List.cons_append]

/-- A run over blocks, each of which is a run over its items, is a run over all items. -/
theorem mapState_flatMap {γ δ : Type} {block : γ → List α} (f' : γ → σ → δ × σ)
    (images : δ → List β)
    (hblock : ∀ x s, mapState f (block x) s = (images (f' x s).1, (f' x s).2)) (xs : List γ)
    (s : σ) : mapState f (xs.flatMap block) s =
      ((mapState f' xs s).1.flatMap images, (mapState f' xs s).2) := by
  induction xs generalizing s with
  | nil => rfl
  | cons x xs ih =>
    rw [List.flatMap_cons, mapState_append, hblock, ih, mapState_cons, List.flatMap_cons]

theorem mapState_invariant_of_mem {P : σ → Prop} {xs : List α} {s : σ}
    (hf : ∀ x ∈ xs, ∀ s, P s → P (f x s).2) (hs : P s) : P (mapState f xs s).2 := by
  induction xs generalizing s with
  | nil => exact hs
  | cons x xs ih =>
    exact ih (fun y hy => hf y (List.mem_cons_of_mem _ hy)) (hf x (by simp) s hs)

/-- What holds of an item and its image right after their step, and stays so, holds in the end of
all items and their images. -/
theorem mapState_forall₂ {R : σ → α → β → Prop} (hstep : ∀ x s, R (f x s).2 x (f x s).1)
    (hkeep : ∀ x s x' y', R s x' y' → R (f x s).2 x' y') (xs : List α) (s : σ) :
    List.Forall₂ (R (mapState f xs s).2) xs (mapState f xs s).1 := by
  have hlater : ∀ xs s x y, R s x y → R (mapState f xs s).2 x y := by
    intro xs
    induction xs with
    | nil => exact fun s x y h => h
    | cons z xs ih => exact fun s x y h => ih _ x y (hkeep z s x y h)
  induction xs generalizing s with
  | nil => exact .nil
  | cons x xs ih =>
    rw [mapState_cons]
    exact .cons (hlater xs _ _ _ (hstep x s)) (ih _)

/-- A run follows a simpler machine, seen through a view of the state, if every step does. -/
theorem mapState_follows {γ δ τ : Type} {R : α → γ → Prop} {P : τ → Prop} {view : σ → τ}
    {g : τ → γ → τ} {image : β → δ} {target : γ → δ} {xs : List α} {ys : List γ}
    (h : List.Forall₂ R xs ys)
    (hstep : ∀ x, ∀ y ∈ ys, R x y → ∀ s, P (view s) → image (f x s).1 = target y ∧
      view (f x s).2 = g (view s) y ∧ P (g (view s) y)) :
    ∀ s, P (view s) → (mapState f xs s).1.map image = ys.map target ∧
      view (mapState f xs s).2 = ys.foldl g (view s) ∧ P (ys.foldl g (view s)) := by
  induction h with
  | nil => exact fun s hs => ⟨rfl, rfl, hs⟩
  | @cons x y xs ys hxy h ih =>
    intro s hs
    obtain ⟨himage, hview, hinv⟩ := hstep x y (by simp) hxy s hs
    obtain ⟨himages, hviews, hinvs⟩ := ih (fun x y hy => hstep x y (List.mem_cons_of_mem _ hy))
      (f x s).2 (hview ▸ hinv)
    rw [hview] at hviews hinvs
    exact ⟨by rw [mapState_cons, List.map_cons, himage, himages, List.map_cons], hviews, hinvs⟩

/-- If every step puts something in front of what the state holds, the whole run puts everything in
front, the last first. -/
theorem mapState_pushes {γ : Type} (held : σ → List γ) (new : β → List γ)
    (hstep : ∀ x s, held (f x s).2 = (new (f x s).1).reverse ++ held s) (xs : List α) (s : σ) :
    held (mapState f xs s).2 = ((mapState f xs s).1.flatMap new).reverse ++ held s := by
  induction xs generalizing s with
  | nil => rfl
  | cons x xs ih =>
    rw [mapState_cons, ih, hstep]
    simp

/-- What is distinct in front of others is distinct behind them. -/
theorem nodup_of_pushed {γ : Type} {xs ys : List γ} (h : (ys.reverse ++ xs).Nodup) :
    (xs ++ ys).Nodup := by
  have hperm : (xs ++ ys).Perm (ys.reverse ++ xs) :=
    List.perm_append_comm.trans ((List.reverse_perm ys).symm.append_right xs)
  exact hperm.nodup_iff.2 h

end GrammarRepair
