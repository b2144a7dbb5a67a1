import CommandLine.Check
import CommandLine.Names
import CommandLine.Nargs
import CommandLine.Schema.Settings

/-!
# The schema of a command line

What a program declares about its command line: a tree of commands, the
root and its sub-commands, with the parameters that belong to each
(`Schema`). Commands and parameters are known by numbers, which are
never given out twice.

The schema says nothing about any one command line; what a parse finds
is kept apart, and refers to the schema by number.
-/

namespace CommandLine

/-- The number of a command. They are given out in the order of declaration. -/
structure CommandId where
  index : Nat
  deriving DecidableEq, Repr

/-- The command that stands for the program itself. -/
def CommandId.root : CommandId := ⟨0⟩

/-- The number of a parameter. They are given out in the order of declaration,
over all commands, and stay with the parameter when others are removed. -/
structure ParameterId where
  number : Nat
  deriving DecidableEq, Repr

/-- The number, for messages about a parameter that may not exist. -/
def ParameterId.label (p : ParameterId) : String := "#" ++ toString p.number

structure Parameter where
  id : ParameterId
  names : Names
  nargs : Nargs
  /-- Whether repeated mentions add up, rather than contradict each other. -/
  accumulates : Bool
  required : Bool := false
  /-- Whether configuration files can set it. -/
  configurable : Bool := true
  /-- The environment variable that stands in for it. -/
  env : Option String := none
  repetition : Repetition := .strict
  help : Option String := none
  checks : List Check := []
  /-- What must be mentioned along with it. -/
  requires : List ParameterId := []
  /-- What must not be mentioned along with it. -/
  excludes : List ParameterId := []

namespace Parameter

/-- The name that messages use. -/
def label (p : Parameter) : String := p.names.label

/-- The parameter without its relations to another one. -/
def forget (other : ParameterId) (p : Parameter) : Parameter :=
  { p with requires := p.requires.filter (· ≠ other), excludes := p.excludes.filter (· ≠ other) }

/-- What it is related to. -/
def related (relation : Relation) (p : Parameter) : List ParameterId :=
  match relation with
  | .requires => p.requires
  | .excludes => p.excludes

/-- The parameter with one more relation. -/
def relate (relation : Relation) (target : ParameterId) (p : Parameter) : Parameter :=
  match relation with
  | .requires => { p with requires := p.requires ++ [target] }
  | .excludes => { p with excludes := p.excludes ++ [target] }

end Parameter

structure Command where
  name : String
  about : Option String := none
  footer : Option String := none
  /-- The commands it lies under, its parent first and the root last. -/
  ancestors : List CommandId := []
  /-- Its parameters, in the order of declaration. -/
  parameters : List Parameter := []
  settings : Settings := {}
  requireSubcommand : Bool := false
  /-- The parameter that asks for help. -/
  help : Option ParameterId := none
  /-- What is reported when a parse completes the command. -/
  onComplete : Option String := none

namespace Command

def parent (command : Command) : Option CommandId := command.ancestors.head?

/-- The parameters that are filled by position, in the order of declaration. -/
def positionals (command : Command) : List Parameter :=
  command.parameters.filter (·.names.isPositional)

/-- The parameter with the short name. -/
def short? (command : Command) (name : Char) : Option Parameter :=
  command.parameters.find? (·.names.shorts.any (command.settings.sameShort · name))

/-- The parameter with the long name. -/
def long? (command : Command) (name : String) : Option Parameter :=
  command.parameters.find? (·.names.longs.any (command.settings.sameName · name))

/-- The parameter with the positional name. -/
def positional? (command : Command) (name : String) : Option Parameter :=
  command.parameters.find? (·.names.positional.any (command.settings.sameName · name))

/-- The parameter whose short name is the whole text. -/
def shortText? (command : Command) : List Char → Option Parameter
  | [c] => command.short? c
  | _ => none

/-- The parameter that answers to a name. Dashes tell its kind; without them a
positional name comes before a long one, and that before a short one. -/
def named? (command : Command) (name : String) : Option Parameter :=
  match name.toList with
  | '-' :: '-' :: long => command.long? (String.ofList long)
  | '-' :: short => command.shortText? short
  | bare => command.positional? name <|> command.long? name <|> command.shortText? bare

end Command

/-- The parameter that names the configuration file. -/
structure ConfigSource where
  parameter : ParameterId
  /-- The file to read when the parameter is not mentioned. -/
  default : Option String := none
  /-- Whether the default file has to be there. -/
  required : Bool := false
  deriving DecidableEq, Repr

/-- The declared commands, the root first. -/
structure Schema where
  commands : List Command
  /-- The number of the next parameter. -/
  nextParameter : Nat := 0
  config : Option ConfigSource := none

namespace Schema

/-- The command of that number. Numbers that were not given out have an empty one. -/
def command (schema : Schema) (c : CommandId) : Command :=
  schema.commands.getD c.index { name := "" }

/-- The numbers that were given out to commands. -/
def commandIds (schema : Schema) : List CommandId :=
  (List.range schema.commands.length).map CommandId.mk

/-- The sub-commands of a command, in the order of declaration. -/
def children (schema : Schema) (c : CommandId) : List CommandId :=
  schema.commandIds.filter fun child => (schema.command child).parent = some c

/-- The sub-command of that name. -/
def child? (schema : Schema) (c : CommandId) (name : String) : Option CommandId :=
  (schema.children c).find? fun child =>
    (schema.command c).settings.sameName (schema.command child).name name

/-- The names of the commands from the root down to this one. -/
def trail (schema : Schema) (c : CommandId) : List String :=
  (c :: (schema.command c).ancestors).reverse.map fun d => (schema.command d).name

/-- All parameters, command by command. -/
def parameters (schema : Schema) : List Parameter := schema.commands.flatMap (·.parameters)

/-- The parameter of that number, unless there is none, or none any more. -/
def parameter? (schema : Schema) (p : ParameterId) : Option Parameter :=
  schema.parameters.find? (·.id = p)

/-- The command that a parameter belongs to. -/
def owner? (schema : Schema) (p : ParameterId) : Option CommandId :=
  schema.commandIds.find? fun c => (schema.command c).parameters.any (·.id = p)

/-- The commands that answer for a name in `c`, given its ancestors: the command
itself, and its parent's where it leaves what it does not know to the parent. -/
def reachThrough (schema : Schema) (c : CommandId) : List CommandId → List CommandId
  | [] => [c]
  | parent :: rest =>
    if (schema.command c).settings.fallthrough then c :: reachThrough schema parent rest else [c]

/-- The commands whose parameters can be mentioned in a command, the nearest first. -/
def reach (schema : Schema) (c : CommandId) : List CommandId :=
  schema.reachThrough c (schema.command c).ancestors

/-- The parameter that a short name means in a command. -/
def shortFrom? (schema : Schema) (c : CommandId) (name : Char) : Option Parameter :=
  (schema.reach c).findSome? fun d => (schema.command d).short? name

/-- The parameter that a long name means in a command. -/
def longFrom? (schema : Schema) (c : CommandId) (name : String) : Option Parameter :=
  (schema.reach c).findSome? fun d => (schema.command d).long? name

/-- The schema with one command changed. -/
def modifyCommand (schema : Schema) (c : CommandId) (f : Command → Command) : Schema :=
  { schema with commands := schema.commands.modify c.index f }

end Schema

end CommandLine
