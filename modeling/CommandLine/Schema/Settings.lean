import CommandLine.Text.Lowercase

/-!
# Settings of a command

How a command reads its part of the command line (`Settings`). Names are
compared after `foldName`, and short names after `foldShort`; the
settings say which differences these remove.
-/

namespace CommandLine

/-- The settings that a sub-command takes over from its parent when it is declared. -/
structure Settings where
  /-- Unknown options and surplus values are kept, and not an error. -/
  allowExtras : Bool := false
  /-- Unknown items of a configuration file are passed over, and not an error. -/
  allowConfigExtras : Bool := false
  /-- The first unknown token ends the reading: the rest is another command's. -/
  prefixCommand : Bool := false
  /-- What the command does not know is left to its parent. -/
  fallthrough : Bool := false
  ignoreCase : Bool := false
  ignoreUnderscore : Bool := false
  /-- The declaration of the help flag, if there is one. -/
  helpNames : Option String := none
  deriving DecidableEq, Repr

/-- What can be switched on and off for a command. -/
inductive Setting where
  | allowExtras
  | allowConfigExtras
  | prefixCommand
  | fallthrough
  | ignoreCase
  | ignoreUnderscore
  | requireSubcommand
  deriving DecidableEq, Repr

namespace Settings

/-- The name as it takes part in comparisons. Lower case comes first, so that an
underscore still ends a word when its letters are folded. -/
def foldName (settings : Settings) (name : String) : String :=
  let cs := if settings.ignoreCase then Text.lowercaseChars name.toList else name.toList
  String.ofList (if settings.ignoreUnderscore then cs.filter (· != '_') else cs)

/-- The short name as it takes part in comparisons. -/
def foldShort (settings : Settings) (c : Char) : Char :=
  if settings.ignoreCase then (Text.Lowercase.lowerChar c).headD c else c

/-- Whether the settings take two names for one. -/
def sameName (settings : Settings) (a b : String) : Bool :=
  settings.foldName a == settings.foldName b

/-- Whether the settings take two short names for one. -/
def sameShort (settings : Settings) (a b : Char) : Bool :=
  settings.foldShort a == settings.foldShort b

end Settings

end CommandLine
