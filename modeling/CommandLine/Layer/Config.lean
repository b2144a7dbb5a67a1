import CommandLine.Attempt
import CommandLine.Config.Item
import CommandLine.Scan.Basic

/-!
# The configuration layer

A configuration file gives values to parameters of the active path that
the command line leaves open (`Schema.layerConfig`). Each item is led to
its parameter by the names of the sub-commands (`Schema.route`); items
for sub-commands that were not entered have no effect.
-/

namespace CommandLine

/-- Where an item leads. -/
inductive Route where
  | parameter (p : Parameter)
  /-- To a sub-command that was not entered. -/
  | inactive
  /-- Nowhere; the command is the last one on the way. -/
  | unknown (c : CommandId)

namespace Schema

/-- Follows the names of sub-commands from a command on, and then the name of a
parameter. -/
def routeFrom (schema : Schema) (path : List CommandId) (name : String) (c : CommandId) :
    List String → Route
  | [] =>
    match (schema.command c).named? name with
    | some p => .parameter p
    | none => .unknown c
  | parent :: rest =>
    match schema.child? c parent with
    | some child => if path.contains child then routeFrom schema path name child rest else .inactive
    | none => .unknown c

/-- Where an item leads, from the root. -/
def route (schema : Schema) (path : List CommandId) (item : ConfigItem) : Route :=
  schema.routeFrom path item.name .root item.parents

/-- Adds the values of one item. `given` are the values of the command line,
which come before those of the file. -/
def addItem (schema : Schema) (path : List CommandId) (given : Bindings) (item : ConfigItem)
    (b : Bindings) : Except ParseError Bindings :=
  match schema.route path item with
  | .inactive => .ok b
  | .unknown c =>
    if (schema.command c).settings.allowConfigExtras then .ok b
    else .error (.configExtra item.fullName)
  | .parameter p =>
    if !p.configurable then .error (.notConfigurable item.fullName)
    else if given.invoked p.id then .ok b
    else if p.nargs.isFlag && item.inputs.length != 1 then
      .error (.conversion p.label (" ".intercalate item.inputs) .manyFlagValues)
    else .ok (b.push p.id item.inputs)

/-- Adds the values of the items, up to the first that is refused. -/
def addItems (schema : Schema) (path : List CommandId) (given : Bindings)
    (items : List ConfigItem) : Attempt Bindings ParseError :=
  Attempt.each (fun item b =>
    match schema.addItem path given item b with
    | .ok b => (b, .ok ())
    | .error e => (b, .error e)) items

/-- The configuration file to read, and whether it has to be there. One that is
named on the command line has to. -/
def configFile? (schema : Schema) (b : Bindings) : Option (String × Bool) :=
  schema.config.bind fun source =>
    match (b.values source.parameter).getLast? with
    | some path => some (path, true)
    | none => source.default.map fun path => (path, source.required)

/-- Adds the values of the configuration file. -/
def layerConfig (schema : Schema) (format : ConfigFormat) (files : FileStore)
    (path : List CommandId) : Attempt Bindings ParseError := fun b =>
  match schema.configFile? b with
  | none => (b, .ok ())
  | some (file, needed) =>
    match files.readText? file with
    | some text => schema.addItems path b (format.read text) b
    | none => if needed then (b, .error (.fileMissing file)) else (b, .ok ())

end Schema

end CommandLine
