import CommandLine.Config.Ini
import CommandLine.Delivery.Deliver
import CommandLine.Help.Columns
import CommandLine.Layer.Config
import CommandLine.Layer.Environment
import CommandLine.Scan.Place
import CommandLine.Scan.Read
import CommandLine.Schema.Declare

/-!
# Command line parsers

A `Parser` holds what a program declares about its command line, the
variables that it binds, and what the last parse found. The first
section declares, `Parser.parse` parses, and the last section answers
questions about the last parse.
-/

namespace CommandLine

structure Parser where
  schema : Schema
  scan : Scan := .start
  vars : Variables := {}
  format : ConfigFormat := Ini.format
  formatter : Formatter := Help.columnFormatter none

namespace Parser

/-! ## Declaring -/

/-- The parser of a program. -/
def ofProgram (program : String) : Parser := { schema := .ofProgram program }

/-- The outcome of a declaration that succeeds or changes nothing. -/
def commit (parser : Parser) (outcome : Except DeclarationError Schema) :
    Parser × Except DeclarationError Unit :=
  match outcome with
  | .ok schema => ({ parser with schema }, .ok ())
  | .error error => (parser, .error error)

/-- The outcome of a declaration that may change something even if it fails. -/
def replace {α : Type} (parser : Parser) (outcome : Schema × Except DeclarationError α) :
    Parser × Except DeclarationError α :=
  ({ parser with schema := outcome.1 }, outcome.2)

/-- Adds a parameter to a command, and binds its variable. -/
def add (parser : Parser) (c : CommandId) (d : Declaration) :
    Parser × Except DeclarationError ParameterId :=
  match parser.schema.addParameter c d with
  | .error error => (parser, .error error)
  | .ok (p, schema) =>
    let vars := match d.field? with
      | some field => parser.vars.insert p field
      | none => parser.vars
    ({ parser with schema, vars }, .ok p)

/-- Adds a sub-command to a command. -/
def addSubcommand (parser : Parser) (c : CommandId) (name : String) :
    Parser × Except DeclarationError CommandId :=
  parser.replace (parser.schema.addSubcommand c name)

/-- Says what a command is for. -/
def setAbout (parser : Parser) (c : CommandId) (text : String) : Parser :=
  { parser with schema := parser.schema.modifyCommand c ({ · with about := some text }) }

/-- Says what stands at the end of a command's help. -/
def setFooter (parser : Parser) (c : CommandId) (text : String) : Parser :=
  { parser with schema := parser.schema.modifyCommand c ({ · with footer := some text }) }

/-- Says what is reported when a parse completes a command. -/
def onComplete (parser : Parser) (c : CommandId) (label : String) : Parser :=
  { parser with schema := parser.schema.modifyCommand c ({ · with onComplete := some label }) }

/-- Switches a setting of a command on or off. -/
def set (parser : Parser) (c : CommandId) (setting : Setting) (value : Bool) :
    Parser × Except DeclarationError Unit :=
  parser.commit (parser.schema.set c setting value)

/-- Puts another help flag in the place of a command's help flag, or none. -/
def replaceHelp (parser : Parser) (c : CommandId) (names : Option String) :
    Parser × Except DeclarationError Unit :=
  parser.replace (parser.schema.replaceHelp c names)

/-- Relates a parameter to another one. -/
def relate (parser : Parser) (relation : Relation) (p q : ParameterId) :
    Parser × Except DeclarationError Unit :=
  parser.commit (parser.schema.addRelation relation p q)

/-- Removes a parameter. -/
def remove (parser : Parser) (p : ParameterId) : Parser × Except DeclarationError Unit :=
  parser.commit (parser.schema.remove p)

/-- Declares the parameter that names the configuration file. -/
def replaceConfig (parser : Parser) (names : String) (default : Option String) (required : Bool) :
    Parser × Except DeclarationError ParameterId :=
  parser.replace (parser.schema.replaceConfig names default required)

/-! ## Parsing -/

/-- The good ends of a parse. -/
inductive Parsed where
  /-- All tokens were matched, checked and delivered. -/
  | complete
  /-- Help was asked for, and nothing else was done. -/
  | help (c : CommandId)
  deriving DecidableEq, Repr

/-- What a parse reports: its result, and the commands that it completed, by
what they are to report. -/
structure Report where
  result : Except ParseError Parsed
  completed : List String := []

end Parser

/-- The innermost command of the active path whose help flag was mentioned. -/
def Schema.helpRequested? (schema : Schema) (scan : Scan) : Option CommandId :=
  (scan.frames.map (·.command)).find? fun c =>
    (schema.command c).help.any fun p => scan.bindings.invoked p

namespace Parser

/-- The parser after a parse that fails. -/
def fail (parser : Parser) (error : ParseError) : Parser × Report :=
  (parser, { result := .error error })

/-- The second half of a parse, after all values of the three layers are there. -/
def finish (parser : Parser) (world : World) : Parser × Report :=
  let scan := parser.scan
  let (d, outcome) := parser.schema.deliver world.files scan ⟨scan.bindings, parser.vars⟩
  let delivered := { scan with bindings := d.bindings }
  let parser := { parser with scan := delivered, vars := d.vars }
  match outcome with
  | .error error => parser.fail error
  | .ok _ =>
    ({ parser with scan := { delivered with completed := true } },
      { result := .ok .complete
        completed := scan.path.filterMap fun c => (parser.schema.command c).onComplete })

/-- Adds the values of the configuration file and of the environment to those of
the command line, and finishes the parse. -/
def layer (parser : Parser) (world : World) : Parser × Report :=
  let scan := parser.scan
  let path := scan.path
  let (b, outcome) := parser.schema.layerConfig parser.format world.files path scan.bindings
  match outcome with
  | .error error => { parser with scan := { scan with bindings := b } }.fail error
  | .ok _ =>
    let b := parser.schema.layerEnvironment world path b
    { parser with scan := { scan with bindings := b } }.finish world

/-- Parses the tokens of a command line, from a fresh start. Whoever asks for help
gets it, however wrong the command line is otherwise. -/
def parse (parser : Parser) (world : World) (tokens : List String) : Parser × Report :=
  let reading := parser.schema.read .start tokens
  let parser := { parser with scan := reading.scan }
  match parser.schema.helpRequested? reading.scan with
  | some c => (parser, { result := .ok (.help c) })
  | none =>
    match reading.failure with
    | some error => parser.fail error
    | none => { parser with scan := parser.schema.place reading.scan }.layer world

/-- Forgets the last parse. The variables keep what it wrote. -/
def reset (parser : Parser) : Parser := { parser with scan := .start }

/-! ## Questions about the last parse -/

/-- The number of values of a parameter, which is found by any of its names. -/
def count (parser : Parser) (c : CommandId) (name : String) : Except LookupError Nat :=
  match (parser.schema.command c).named? name with
  | some p => .ok (parser.scan.bindings.count p.id)
  | none => .error (.parameterNotFound name)

/-- The invocations of a parameter, with their values. -/
def invocations (parser : Parser) (p : ParameterId) : Except LookupError (List (List String)) :=
  match parser.schema.parameter? p with
  | some _ => .ok (parser.scan.bindings.of p)
  | none => .error (.parameterNotFound p.label)

/-- The values of a parameter. -/
def results (parser : Parser) (p : ParameterId) : Except LookupError (List String) :=
  (parser.invocations p).map List.flatten

/-- The tokens that nothing was found for. -/
def remaining (parser : Parser) : List String := parser.scan.remaining

/-- The sub-command that was entered from within a command. -/
def selected? (parser : Parser) (c : CommandId) : Option CommandId := parser.scan.selected? c

/-- The names of the sub-commands that were entered, outermost first. -/
def subcommandPath (parser : Parser) : List String :=
  (parser.scan.path.drop 1).map fun c => (parser.schema.command c).name

/-- Whether the parse completed a command. -/
def isParsed (parser : Parser) (c : CommandId) : Bool := parser.scan.isParsed c

/-! ## Help and configuration -/

/-- The name that stands for a parameter's values in help. -/
def placeholderName (names : Names) : String :=
  (names.positional <|> names.longs.head? <|> names.shorts.head?.map String.singleton).getD ""

/-- What help shows about a parameter. -/
def parameterHelp (p : Parameter) : ParameterHelp where
  flags := p.names.flags
  name := placeholderName p.names
  nargs := p.nargs
  help := p.help
  required := p.required
  env := p.env

/-- What help shows about a command. -/
def helpPage (parser : Parser) (c : CommandId) : HelpPage :=
  let command := parser.schema.command c
  let (arguments, options) := command.parameters.partition (·.names.isPositional)
  { program := " ".intercalate (parser.schema.trail c)
    about := command.about
    footer := command.footer
    options := options.map parameterHelp
    arguments := arguments.map parameterHelp
    subcommands := (parser.schema.children c).map fun d =>
      ⟨(parser.schema.command d).name, (parser.schema.command d).about⟩ }

/-- The help text of a command. -/
def help (parser : Parser) (c : CommandId) : String := parser.formatter.render (parser.helpPage c)

/-- The name under which a parameter is written to a configuration file. -/
def configName (names : Names) : String :=
  (names.longs.head? <|> names.positional <|> names.shorts.head?.map String.singleton).getD ""

/-- The text that stands for the values of a flag: the last one that has a text. -/
def flagInput (values : List String) : String :=
  (values.filter (!·.isEmpty)).getLast?.getD "true"

/-- The item that gives a parameter the values it has, if it can be configured. -/
def configItem? (parser : Parser) (parents : List String) (p : Parameter) : Option ConfigItem :=
  let b := parser.scan.bindings
  if p.configurable && b.invoked p.id then
    let values := b.values p.id
    some ⟨parents, configName p.names, if p.nargs.isFlag then [flagInput values] else values⟩
  else none

/-- The items for all that the last parse found. -/
def configItems (parser : Parser) : List ConfigItem :=
  parser.scan.path.flatMap fun c =>
    (parser.schema.command c).parameters.filterMap
      (parser.configItem? ((parser.schema.trail c).drop 1))

/-- A configuration file for all that the last parse found. -/
def toConfig (parser : Parser) : String := parser.format.write parser.configItems

end Parser

end CommandLine
