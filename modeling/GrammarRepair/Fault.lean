/-!
Why a call is refused outright: an index that does not exist, or data that the chosen index width
cannot number. Faults of the second kind have a wording of their own.
-/

namespace GrammarRepair

/-- What the index width is too narrow for. -/
inductive Overfull
  | grammar | rules | tokens | productions | input
  deriving DecidableEq, Repr

inductive Fault
  | outOfRange
  | backwardSpan (start stop : Nat)
  | overfull (what : Overfull)
  | repeatedName
  | startOutOfRange
  | ruleOutOfRange
  | stateOverflow
  deriving DecidableEq, Repr

def Overfull.describe : Overfull → String
  | .grammar => "this grammar."
  | .rules => "this grammar's rules."
  | .tokens => "this grammar's tokens."
  | .productions => "this grammar's productions."
  | .input => "this input's tokens."

def Fault.message? : Fault → Option String
  | .outOfRange => none
  | .backwardSpan start stop => some s!"Span starts ({start}) after it ends ({stop})!"
  | .overfull what => some ("StorageT is not big enough to store " ++ what.describe)
  | .repeatedName => some "Duplicate rule or token name."
  | .startOutOfRange => some "Start rule out of range."
  | .ruleOutOfRange => some "Rule index out of range."
  | .stateOverflow => some "Overflow"

end GrammarRepair
