/-!
The messages that the searches report while they work, and values that carry the messages sent on
the way to them.
-/

namespace GrammarRepair

inductive StateOrder
  | grid | topological
  deriving DecidableEq, Repr

inductive Event
  | automatonBuilt (states edges : Nat) (order : StateOrder)
  | distanceSwept (distance pairs : Nat)
  | intersected (states before after : Nat)
  | radiusTried (radius states edges : Nat) (found : Bool)
  | repaired (radius nodes derivations : Nat)
  deriving DecidableEq, Repr

inductive Level
  | debug | trace
  deriving DecidableEq, Repr

namespace StateOrder

def describe : StateOrder → String
  | grid => "grid"
  | topological => "Kahn"

end StateOrder

namespace Level

def describe : Level → String
  | debug => "DEBUG"
  | trace => "TRACE"

end Level

namespace Event

/-- Sweeping a distance is the only detail below the debugging level. -/
def level : Event → Level
  | distanceSwept .. => .trace
  | _ => .debug

def message : Event → String
  | automatonBuilt states edges order =>
    s!"Automaton: {states} states, {edges} edges, {order.describe} order"
  | distanceSwept distance pairs => s!"CYK: distance {distance}, {pairs} pairs"
  | intersected states before after =>
    s!"Bar-Hillel: {states} states, {before} productions, {after} after pruning"
  | radiusTried radius states edges found =>
    let verdict := if found then "non-empty" else "empty"
    s!"LED: radius {radius} ({states} states, {edges} edges): {verdict}"
  | repaired radius nodes derivations =>
    s!"Repairs: radius {radius}, {nodes} forest nodes, {derivations} derivations"

def line (e : Event) : String := e.level.describe ++ " " ++ e.message

end Event

/-- A value together with the events on the way to it, oldest first. -/
structure Traced (α : Type) where
  events : List Event
  value : α

namespace Traced

def emit (e : Event) : Traced Unit := ⟨[e], ()⟩

instance : Monad Traced where
  pure a := ⟨[], a⟩
  bind x f := ⟨x.events ++ (f x.value).events, (f x.value).value⟩

@[simp] theorem value_pure {α : Type} (a : α) : (pure a : Traced α).value = a := rfl
@[simp] theorem events_pure {α : Type} (a : α) : (pure a : Traced α).events = [] := rfl

@[simp] theorem value_bind {α β : Type} (x : Traced α) (f : α → Traced β) :
    (x >>= f).value = (f x.value).value := rfl

@[simp] theorem events_bind {α β : Type} (x : Traced α) (f : α → Traced β) :
    (x >>= f).events = x.events ++ (f x.value).events := rfl

@[simp] theorem value_map {α β : Type} (f : α → β) (x : Traced α) :
    (f <$> x).value = f x.value := rfl

@[simp] theorem events_map {α β : Type} (f : α → β) (x : Traced α) :
    (f <$> x).events = x.events := by
  show x.events ++ [] = x.events
  simp

@[simp] theorem events_emit (e : Event) : (emit e).events = [e] := rfl

end Traced

end GrammarRepair
