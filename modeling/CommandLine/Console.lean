import CommandLine.Parser

/-!
# Parsing as a program does

What a program shows to its user when it parses its command line at the
start (`Parser.invoke`): help goes to standard output and ends the
program well, and errors go to standard error and end it with their exit
code. After a complete parse the program goes on.
-/

namespace CommandLine

/-- What is shown, and the exit code if the program ends. -/
structure Shown where
  out : String := ""
  err : String := ""
  exitCode : Option Nat := none
  deriving DecidableEq, Repr

namespace Parser

/-- The way to the help of the innermost command, if it has a help flag. -/
def usageHint (parser : Parser) : String :=
  match (parser.schema.reader parser.scan).help with
  | some p => "Run with " ++ parser.schema.labelOf p ++ " for more information.\n"
  | none => ""

/-- Parses the tokens and shows the user what comes of it. -/
def invoke (parser : Parser) (world : World) (tokens : List String) : Parser × Report × Shown :=
  let (parser, report) := parser.parse world tokens
  let shown : Shown := match report.result with
    | .ok .complete => {}
    | .ok (.help c) => { out := parser.help c ++ "\n", exitCode := some 0 }
    | .error error =>
      { out := if error.showsUsage then parser.usageHint else ""
        err := error.message ++ "\n"
        exitCode := some error.exitCode }
  (parser, report, shown)

end Parser

end CommandLine
