import CommandLine.Scan.Bindings

/-!
# The state of one parse

What is known about a command line after some of its tokens
(`Scan`): the commands that have been entered, from the innermost out,
with the tokens that each still has to place (`Frame`), and the values
found so far. The commands that were entered are the active path.
-/

namespace CommandLine

/-- A command that has been entered, with the tokens left to it. -/
structure Frame where
  command : CommandId
  /-- Plain values that wait to be placed. -/
  pending : List String := []
  /-- Tokens that nothing was found for. -/
  missing : List String := []
  /-- Plain values that there is no place for. -/
  overflow : List String := []
  deriving DecidableEq, Repr

structure Scan where
  /-- The innermost command that has been entered; it reads the next token. -/
  current : Frame
  /-- The commands around it, the nearest first. -/
  outer : List Frame := []
  bindings : Bindings := {}
  /-- Whether the mark was read that makes all further tokens plain values. -/
  positionalOnly : Bool := false
  /-- Whether the parse came to a good end. -/
  completed : Bool := false
  deriving DecidableEq, Repr

namespace Scan

/-- The state before the first token. -/
def start : Scan := { current := { command := .root } }

/-- The commands that have been entered, the innermost first. -/
def frames (scan : Scan) : List Frame := scan.current :: scan.outer

/-- The active path, the root first. -/
def path (scan : Scan) : List CommandId := (scan.frames.map (·.command)).reverse

/-- The command that was entered from within `c`. -/
def selectedAfter (c : CommandId) : List CommandId → Option CommandId
  | d :: e :: rest => if d = c then some e else selectedAfter c (e :: rest)
  | _ => none

/-- The sub-command that was entered from within a command. -/
def selected? (scan : Scan) (c : CommandId) : Option CommandId := selectedAfter c scan.path

/-- Whether the parse came to a good end in or below the command. -/
def isParsed (scan : Scan) (c : CommandId) : Bool := scan.completed && scan.path.contains c

/-- The tokens that nothing was found for, along the active path. -/
def remaining (scan : Scan) : List String := scan.frames.reverse.flatMap (·.missing)

/-- The state with one more invocation of a parameter. -/
def record (scan : Scan) (p : ParameterId) (values : List String) : Scan :=
  { scan with bindings := scan.bindings.push p values }

/-- The state inside a sub-command. -/
def enter (scan : Scan) (child : CommandId) : Scan :=
  { scan with current := { command := child }, outer := scan.current :: scan.outer }

/-- The state with tokens that nothing was found for. -/
def addMissing (scan : Scan) (tokens : List String) : Scan :=
  { scan with current := { scan.current with missing := scan.current.missing ++ tokens } }

/-- The state with one more value that waits to be placed. -/
def addPending (scan : Scan) (token : String) : Scan :=
  { scan with current := { scan.current with pending := scan.current.pending ++ [token] } }

end Scan

end CommandLine
