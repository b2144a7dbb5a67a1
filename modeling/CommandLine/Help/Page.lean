import CommandLine.Nargs

/-!
# Help pages

What there is to say about a command (`HelpPage`), and a `Formatter`
that makes a text of it.
-/

namespace CommandLine

/-- A parameter, as far as help shows it. -/
structure ParameterHelp where
  /-- The names with their dashes; none for a positional parameter. -/
  flags : List String := []
  /-- The name that stands for the values. -/
  name : String
  nargs : Nargs
  help : Option String := none
  required : Bool := false
  /-- The environment variable that is looked up. -/
  env : Option String := none
  deriving DecidableEq, Repr

/-- A sub-command, as far as help shows it. -/
structure SubcommandHelp where
  name : String
  about : Option String := none
  deriving DecidableEq, Repr

/-- All that help shows about a command, each list in the order of declaration. -/
structure HelpPage where
  /-- The program, and the sub-commands that lead to this command. -/
  program : String
  about : Option String := none
  /-- What stands below everything else. -/
  footer : Option String := none
  options : List ParameterHelp := []
  arguments : List ParameterHelp := []
  subcommands : List SubcommandHelp := []
  deriving DecidableEq, Repr

/-- A way to write help pages. -/
structure Formatter where
  render : HelpPage → String

end CommandLine
