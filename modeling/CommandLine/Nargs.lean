/-!
# How many values

The number of values that one mention of a parameter takes (`Nargs`),
and what becomes of several mentions of the same parameter
(`Repetition`).
-/

namespace CommandLine

/-- The number of values for one mention of a parameter. -/
inductive Nargs where
  | exactly (n : Nat)
  | any
  | atLeastOne
  deriving DecidableEq, Repr

namespace Nargs

/-- A flag takes no values. -/
def isFlag (n : Nargs) : Bool := n = .exactly 0

/-- Takes as many values as there are. -/
def isUnlimited : Nargs → Bool
  | .exactly _ => false
  | .any | .atLeastOne => true

/-- The number of values after which the parameter is full, if there is one. -/
def capacity : Nargs → Option Nat
  | .exactly n => some n
  | .any | .atLeastOne => none

/-- The least number of values that a mentioned parameter must hold. -/
def minimum : Nargs → Nat
  | .exactly n => n
  | .any => 0
  | .atLeastOne => 1

/-- The name under which the cardinality is reported. -/
def text : Nargs → String
  | .exactly n => s!"Precisely({n})"
  | .any => "Any"
  | .atLeastOne => "AtLeastOne"

/-- Unlimited means without a capacity. -/
theorem isUnlimited_iff (n : Nargs) : n.isUnlimited = true ↔ n.capacity = none := by
  cases n <;> simp [isUnlimited, capacity]

theorem capacity_eq_some {nargs : Nargs} {n : Nat} :
    nargs.capacity = some n ↔ nargs = .exactly n := by
  cases nargs <;> simp [capacity]

end Nargs

/-- What becomes of the values of repeated mentions, before they are converted. -/
inductive Repetition where
  /-- More values than the parameter holds are an error. -/
  | strict
  /-- The last values count. -/
  | takeLast
  /-- The first values count. -/
  | takeFirst
  /-- All values become one, a line each. -/
  | joined
  deriving DecidableEq, Repr

end CommandLine
