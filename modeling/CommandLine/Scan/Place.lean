import CommandLine.Scan.Basic

/-!
# Placing plain values

After all tokens are read, the plain values that wait in each command are
dealt out to its positional parameters (`Bindings.fill`), in the order of
declaration and each up to its capacity. This is done from the innermost
command out, since what is left over may go to the parent
(`Schema.placeFrame`). In the end no value waits (`Schema.place`).
-/

namespace CommandLine

/-- How many of the waiting values the parameter takes. -/
def Bindings.take (b : Bindings) (p : Parameter) (waiting : Nat) : Nat :=
  match p.nargs.capacity with
  | some capacity => min (capacity - b.count p.id) waiting
  | none => waiting

/-- Deals the values out to the parameters, one invocation for each value, and
returns those that are left over. -/
def Bindings.fill (b : Bindings) : List Parameter → List String → Bindings × List String
  | [], values => (b, values)
  | p :: rest, values =>
    let n := b.take p values.length
    (b.pushEach p.id (values.take n)).fill rest (values.drop n)

/-- The outcome of placing the values of one command. -/
structure Placed where
  frame : Frame
  /-- The values that go to the parent. -/
  handedOn : List String
  bindings : Bindings

namespace Schema

/-- Places the values that wait in a command, and behind them those handed on by
its sub-command. What is left over goes to the parent with `fallthrough`, else
is kept with `allowExtras`, else is too much. -/
def placeFrame (schema : Schema) (b : Bindings) (frame : Frame) (isRoot : Bool)
    (handedOn : List String) : Placed :=
  let command := schema.command frame.command
  let (b, left) := b.fill command.positionals (frame.pending ++ handedOn)
  let emptied := { frame with pending := [] }
  if command.settings.fallthrough && !isRoot then ⟨emptied, left, b⟩
  else if command.settings.allowExtras then
    ⟨{ emptied with missing := frame.missing ++ left }, [], b⟩
  else ⟨{ emptied with overflow := frame.overflow ++ left }, [], b⟩

/-- Places the values that wait in the commands, the innermost first. -/
def placeOuter (schema : Schema) (b : Bindings) (handedOn : List String) :
    List Frame → List Frame × Bindings
  | [] => ([], b)
  | frame :: outer =>
    let placed := schema.placeFrame b frame outer.isEmpty handedOn
    let (frames, b) := placeOuter schema placed.bindings placed.handedOn outer
    (placed.frame :: frames, b)

/-- Places all values that wait. -/
def place (schema : Schema) (scan : Scan) : Scan :=
  let placed := schema.placeFrame scan.bindings scan.current scan.outer.isEmpty []
  let (outer, b) := schema.placeOuter placed.bindings placed.handedOn scan.outer
  { scan with current := placed.frame, outer := outer, bindings := b }

end Schema

end CommandLine
