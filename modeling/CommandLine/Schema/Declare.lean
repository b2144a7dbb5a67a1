import CommandLine.Field
import CommandLine.Schema.Basic

/-!
# Declaring a command line

The operations that build a `Schema`. Most of them either succeed or
change nothing, and return `Except`. The two that put a new parameter in
the place of an old one, `replaceHelp` and `replaceConfig`, take the old one away
first; they return the schema they leave along with their outcome.

Within a command all names of one kind differ (`Settings.clash?`).
Settings that make more names equal are refused where that would no
longer hold (`Schema.nameClash?`).
-/

namespace CommandLine

/-! ## Names that are taken -/

/-- The first of the new names that is already among the other parameter's. -/
def Settings.clash? (settings : Settings) (new old : Names) : Option DeclarationError :=
  let short := new.shorts.find? fun c => old.shorts.any (settings.sameShort · c)
  let long := new.longs.find? fun name => old.longs.any (settings.sameName · name)
  let positional := new.positional.filter fun name =>
    old.positional.any (settings.sameName · name)
  (short.map fun c => .duplicate .short s!"-{c}") <|>
    (long.map fun name => .duplicate .long s!"--{name}") <|>
    positional.map (.duplicate .positional)

/-- The first clash of the names with one of the parameters. -/
def Command.clash? (command : Command) (new : Names) (among : List Parameter) :
    Option DeclarationError :=
  among.findSome? fun p => command.settings.clash? new p.names

/-- The first clash of a parameter with one declared before it. -/
def Command.clashAfter? (command : Command) (before : List Parameter) :
    List Parameter → Option DeclarationError
  | [] => none
  | p :: rest =>
    command.clash? p.names before <|> command.clashAfter? (before ++ [p]) rest

/-- The first name of a sub-command that one declared before it has too. -/
def Settings.childClash? (settings : Settings) (before : List String) :
    List String → Option DeclarationError
  | [] => none
  | name :: rest =>
    if before.any (settings.sameName · name) then some (.duplicate .subcommand name)
    else settings.childClash? (before ++ [name]) rest

/-- The first clash of names in a command under its settings. -/
def Schema.nameClash? (schema : Schema) (c : CommandId) : Option DeclarationError :=
  let command := schema.command c
  command.clashAfter? [] command.parameters <|>
    command.settings.childClash? [] ((schema.children c).map fun d => (schema.command d).name)

/-! ## Parameters -/

/-- What becomes of a parameter's values. -/
inductive Binding where
  /-- They go to a variable, and the parameter is mentioned with dashes. -/
  | option (field : Field)
  /-- They go to a variable, and the parameter is filled by position. -/
  | argument (field : Field)
  /-- They are kept as text, however the parameter is named. -/
  | values (nargs : Nargs)

/-- The declaration of a parameter. -/
structure Declaration where
  names : String
  binding : Binding
  required : Bool := false
  configurable : Bool := true
  env : Option String := none
  repetition : Repetition := .strict
  help : Option String := none
  checks : List Check := []

namespace Declaration

/-- The variable that the parameter is bound to. -/
def field? (d : Declaration) : Option Field :=
  match d.binding with
  | .option field | .argument field => some field
  | .values _ => none

def nargs (d : Declaration) : Nargs :=
  match d.binding with
  | .option field | .argument field => field.nargs
  | .values nargs => nargs

def accumulates (d : Declaration) : Bool :=
  match d.binding with
  | .option field | .argument field => field.accumulates
  | .values _ => true

/-- The contradiction between the kind of name and the binding. -/
def nameMisuse? (d : Declaration) (names : Names) : Option Misuse :=
  match d.binding with
  | .option _ => if names.isPositional then some (.positionalOption d.names) else none
  | .argument _ => if names.isDashed then some (.dashedArgument d.names) else none
  | .values _ => none

/-- The first contradiction within the declaration. -/
def misuse? (d : Declaration) (names : Names) : Option Misuse :=
  d.nameMisuse? names <|>
    if names.isPositional && d.nargs.isFlag then some (.positionalFlag d.names)
    else if d.nargs.isFlag && !d.checks.isEmpty then some (.checkedFlag d.names)
    else if d.nargs.isUnlimited && d.repetition ≠ .strict then
      some (.unlimitedRepetition d.names)
    else none

/-- The parameter, under a number and with its names read. -/
def toParameter (d : Declaration) (id : ParameterId) (names : Names) : Parameter where
  id := id
  names := names
  nargs := d.nargs
  accumulates := d.accumulates
  required := d.required
  configurable := d.configurable
  env := d.env
  repetition := d.repetition
  help := d.help
  checks := d.checks

end Declaration

namespace Schema

/-- Adds a parameter to a command, under the next number. -/
def addParameter (schema : Schema) (c : CommandId) (d : Declaration) :
    Except DeclarationError (ParameterId × Schema) := do
  let names ← Names.ofDeclaration d.names
  if let some misuse := d.misuse? names then
    throw (.misuse misuse)
  let command := schema.command c
  if let some error := command.clash? names command.parameters then
    throw error
  let id : ParameterId := ⟨schema.nextParameter⟩
  let parameter := d.toParameter id names
  let grown := schema.modifyCommand c fun command =>
    { command with parameters := command.parameters ++ [parameter] }
  return (id, { grown with nextParameter := schema.nextParameter + 1 })

/-- The schema without a parameter, and without whatever refers to it. -/
def without (schema : Schema) (p : ParameterId) : Schema where
  commands := schema.commands.map fun command =>
    { command with
      parameters := (command.parameters.filter (·.id ≠ p)).map (Parameter.forget p)
      help := command.help.filter (· ≠ p) }
  nextParameter := schema.nextParameter
  config := schema.config.filter (·.parameter ≠ p)

/-- Removes a parameter. -/
def remove (schema : Schema) (p : ParameterId) : Except DeclarationError Schema :=
  match schema.parameter? p with
  | some _ => .ok (schema.without p)
  | none => .error (.missingParameter p.label)

/-- The parameter of that number, for declarations that name it. -/
def getParameter (schema : Schema) (p : ParameterId) : Except DeclarationError Parameter :=
  match schema.parameter? p with
  | some parameter => .ok parameter
  | none => .error (.missingParameter p.label)

/-- Whether a command is the other one or lies above it. -/
def isAbove (schema : Schema) (c d : CommandId) : Bool :=
  c = d || (schema.command d).ancestors.contains c

/-- Whether the second parameter belongs to the command of the first, or to one above it. -/
def sees (schema : Schema) (p q : ParameterId) : Bool :=
  match schema.owner? p, schema.owner? q with
  | some c, some d => schema.isAbove d c
  | _, _ => false

/-- Relates a parameter to another one that it sees. -/
def addRelation (schema : Schema) (relation : Relation) (p q : ParameterId) :
    Except DeclarationError Schema := do
  let dependent ← schema.getParameter p
  let target ← schema.getParameter q
  if p = q then
    throw (.misuse (.selfRelation dependent.label relation))
  if !schema.sees p q then
    throw (.misuse (.foreignRelation dependent.label relation target.label))
  if (dependent.related relation).contains q then
    throw (.duplicateRelation dependent.label relation target.label)
  let relate (parameter : Parameter) :=
    if parameter.id = p then parameter.relate relation q else parameter
  return { schema with
    commands := schema.commands.map fun command =>
      { command with parameters := command.parameters.map relate } }

/-! ## The help flag and the configuration file -/

/-- What help says about the help flag. -/
def helpMessage : String := "Show this help message and exit."

/-- What help says about the parameter that names the configuration file. -/
def configMessage : String := "Read parameters from a configuration file."

def helpDeclaration (names : String) : Declaration where
  names := names
  binding := .values (.exactly 0)
  configurable := false
  help := some helpMessage

def configDeclaration (names : String) : Declaration where
  names := names
  binding := .values (.exactly 1)
  configurable := false
  help := some configMessage

/-- Puts another help flag in the place of the present one, or none. The present
one is gone even if the other one is refused. -/
def replaceHelp (schema : Schema) (c : CommandId) (names : Option String) :
    Schema × Except DeclarationError Unit :=
  let cleared := match (schema.command c).help with
    | some p => schema.without p
    | none => schema
  match names with
  | none =>
    (cleared.modifyCommand c fun command =>
      { command with settings := { command.settings with helpNames := none } }, .ok ())
  | some declaration =>
    match cleared.addParameter c (helpDeclaration declaration) with
    | .ok (p, grown) =>
      (grown.modifyCommand c fun command =>
        { command with
          help := some p
          settings := { command.settings with helpNames := some declaration } }, .ok ())
    | .error error => (cleared, .error error)

/-- Puts another parameter for the configuration file in the place of the present
one. The present one is gone even if the other one is refused. -/
def replaceConfig (schema : Schema) (names : String) (default : Option String) (required : Bool) :
    Schema × Except DeclarationError ParameterId :=
  let cleared := match schema.config with
    | some source => schema.without source.parameter
    | none => schema
  match cleared.addParameter .root (configDeclaration names) with
  | .ok (p, grown) =>
    ({ grown with config := some { parameter := p, default, required } }, .ok p)
  | .error error => (cleared, .error error)

/-! ## Commands -/

/-- The declaration of the help flag that a program has from the start. -/
def defaultHelp : String := "-h,--help"

/-- The schema of a program, with a help flag and nothing else. -/
def ofProgram (program : String) : Schema :=
  (replaceHelp { commands := [{ name := program }] } .root (some defaultHelp)).1

/-- Adds a sub-command that has its parent's settings, without a help flag yet. -/
def addChild (schema : Schema) (parent : CommandId) (name : String) :
    Except DeclarationError (CommandId × Schema) := do
  if !isName name.toList then
    throw (.badName name .invalidSubcommand)
  if (schema.child? parent name).isSome then
    throw (.duplicate .subcommand name)
  let above := schema.command parent
  let child : Command :=
    { name, ancestors := parent :: above.ancestors, settings := above.settings }
  return (⟨schema.commands.length⟩, { schema with commands := schema.commands ++ [child] })

/-- Adds a sub-command, with a help flag like its parent's. -/
def addSubcommand (schema : Schema) (parent : CommandId) (name : String) :
    Schema × Except DeclarationError CommandId :=
  match schema.addChild parent name with
  | .error error => (schema, .error error)
  | .ok (child, grown) =>
    match (schema.command parent).settings.helpNames with
    | none => (grown, .ok child)
    | some declaration =>
      let (helped, outcome) := grown.replaceHelp child (some declaration)
      (helped, outcome.map fun _ => child)

/-- The schema with other settings for a command. -/
def modifySettings (schema : Schema) (c : CommandId) (f : Settings → Settings) : Schema :=
  schema.modifyCommand c fun command => { command with settings := f command.settings }

/-- Accepts a schema unless names of the command clash. -/
def unlessClash (schema : Schema) (c : CommandId) : Except DeclarationError Schema :=
  match schema.nameClash? c with
  | some error => .error error
  | none => .ok schema

/-- Switches a setting on or off. -/
def set (schema : Schema) (c : CommandId) (setting : Setting) (value : Bool) :
    Except DeclarationError Schema :=
  match setting with
  | .allowExtras => .ok (schema.modifySettings c ({ · with allowExtras := value }))
  | .allowConfigExtras => .ok (schema.modifySettings c ({ · with allowConfigExtras := value }))
  | .prefixCommand => .ok (schema.modifySettings c ({ · with prefixCommand := value }))
  | .fallthrough => .ok (schema.modifySettings c ({ · with fallthrough := value }))
  | .ignoreCase => (schema.modifySettings c ({ · with ignoreCase := value })).unlessClash c
  | .ignoreUnderscore =>
    (schema.modifySettings c ({ · with ignoreUnderscore := value })).unlessClash c
  | .requireSubcommand =>
    .ok (schema.modifyCommand c ({ · with requireSubcommand := value }))

end Schema

end CommandLine
