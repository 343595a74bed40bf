import GrammarRepair.Forest.Derivation
import GrammarRepair.Random.Generator
import GrammarRepair.Random.Shuffle

/-!
Random strings of a forest: single derivations, or all of them in random order without repetition.
-/

namespace GrammarRepair

namespace Forest

variable {σ : Type}

/-- The string of one derivation, all derivations being equally likely. -/
def sample (f : Forest) (gen : Generator σ) (state : σ) : Option (List Nat) × σ :=
  if f.count = 0 then (none, state)
  else
    let (k, state) := gen.draw f.count state
    (f.derivation? k, state)

def samples (f : Forest) (gen : Generator σ) : (n : Nat) → σ → List (Option (List Nat))
  | 0, _ => []
  | n + 1, state =>
    let (w, state) := f.sample gen state
    w :: f.samples gen n state

/-- A run that draws derivations and puts none back; `drawn` is newest first. -/
structure Sampler (σ : Type) where
  left : Shuffle
  state : σ
  drawn : List Nat
  harvest : Harvest

namespace Sampler

def start (f : Forest) (state : σ) (limit : Option Nat) : Sampler σ :=
  ⟨.start f.count, state, [], .start limit⟩

def draw (gen : Generator σ) (s : Sampler σ) : Nat × Sampler σ :=
  let (i, state) := gen.draw s.left.remaining s.state
  let (k, left) := s.left.take i
  (k, { s with left, state, drawn := k :: s.drawn })

@[simp] theorem remaining_draw (gen : Generator σ) (s : Sampler σ) :
    (s.draw gen).2.left.remaining = s.left.remaining - 1 := rfl

/-- Draws until nothing is left, and takes in the strings of the derivations, as far as there is
room. -/
def run (f : Forest) (gen : Generator σ) (s : Sampler σ) : Sampler σ :=
  if s.left.remaining = 0 then s
  else if s.harvest.isFull then s
  else
    let next := s.draw gen
    match f.derivation? next.1 with
    | none => next.2
    | some w => run f gen { next.2 with harvest := next.2.harvest.add w }
termination_by s.left.remaining
decreasing_by
  rw [remaining_draw]
  omega

end Sampler

/-- The distinct strings of a forest in the order in which their derivations are drawn, all or the
first few. -/
def shuffled (f : Forest) (gen : Generator σ) (state : σ) (limit : Option Nat) :
    List (List Nat) :=
  ((Sampler.start f state limit).run f gen).harvest.toList

end Forest

end GrammarRepair
