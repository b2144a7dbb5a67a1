import CommandLine.Schema.Basic

/-!
# From invocations to values

What is done to the invocations of a parameter before they are converted:
the checks go over them (`runChecks`), and the repetition policy makes one
list of values out of them (`Parameter.finalValues`).
-/

namespace CommandLine

/-- Runs a check on one value after the other and stops at the first that is
rejected. That one and those before it are left as the check has changed them. -/
def Check.overValues (check : Check) (files : FileStore) :
    List String → List String × Option String
  | [] => ([], none)
  | value :: rest =>
    match check.apply files value with
    | (left, .error message) => (left :: rest, some message)
    | (accepted, .ok _) =>
      let (rest, rejection) := check.overValues files rest
      (accepted :: rest, rejection)

/-- Runs a check on the values of all invocations. -/
def Check.overInvocations (check : Check) (files : FileStore) :
    List (List String) → List (List String) × Option String
  | [] => ([], none)
  | values :: rest =>
    match check.overValues files values with
    | (values, some message) => (values :: rest, some message)
    | (values, none) =>
      let (rest, rejection) := check.overInvocations files rest
      (values :: rest, rejection)

/-- Runs the checks, each on all values before the next one. -/
def runChecks (files : FileStore) :
    List Check → List (List String) → List (List String) × Option String
  | [], invocations => (invocations, none)
  | check :: rest, invocations =>
    match check.overInvocations files invocations with
    | (invocations, some message) => (invocations, some message)
    | (invocations, none) => runChecks files rest invocations

/-- What stands between values that become one. -/
def joinSeparator : String := "\n"

/-- The values of a parameter under its repetition policy. -/
def Parameter.finalValues (p : Parameter) (invocations : List (List String)) :
    Except ParseError (List String) :=
  let values := invocations.flatten
  let mismatch (expected : Expected) (received : Nat) : Except ParseError (List String) :=
    .error (.argumentMismatch p.label expected received)
  if p.nargs = .atLeastOne ∧ invocations.any (·.isEmpty) then mismatch (.atLeast 1) 0
  else
    let size := p.nargs.capacity.getD 1
    match p.repetition, p.nargs.capacity with
    | .strict, none => .ok values
    | .strict, some n =>
      if p.accumulates then
        if values.length % n = 0 then .ok values else mismatch (.multipleOf n) values.length
      else if values.length = n then .ok values
      else mismatch (.exactly n) values.length
    | .takeLast, _ => .ok (values.drop (values.length - size))
    | .takeFirst, _ => .ok (values.take size)
    | .joined, _ => .ok [joinSeparator.intercalate values]

end CommandLine
