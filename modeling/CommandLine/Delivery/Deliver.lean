import CommandLine.Attempt
import CommandLine.Delivery.Values
import CommandLine.Delivery.Variables
import CommandLine.FlagText
import CommandLine.Scan.Basic

/-!
# Delivering values

The last stage of a parse: the values of each parameter are checked,
converted and written to its variable (`Parameter.deliver`), and then the
command line as a whole is judged (`Schema.violation?`). This is done
for one command of the active path after the other, the innermost first
(`Schema.deliver`). The first error ends it.
-/

namespace CommandLine

/-- What delivering changes: checks change values, and conversions go to variables. -/
structure Delivery where
  bindings : Bindings
  vars : Variables
  deriving DecidableEq, Repr

/-! ## One parameter -/

/-- The number of mentions that a flag's value stands for. A mention on the
command line has an empty value. -/
def mentions (value : String) : Except ConversionFault Int :=
  if value.isEmpty then .ok 1 else FlagText.count value

/-- The sum of the mentions, or the first value that stands for no number. The
sum is taken on 64 bits with a sign, and wraps round where it leaves them. -/
def mentionSum : List String → Except (String × ConversionFault) Int64
  | [] => .ok 0
  | value :: rest =>
    match mentions value with
    | .error fault => .error (value, fault)
    | .ok n => (mentionSum rest).map (Int64.ofInt n + ·)

/-- Writes one value after the other to a variable, up to the first that cannot
be converted. -/
def Field.storeAll : List String → Attempt Field ConversionFault :=
  Attempt.each fun text field =>
    match field.store text with
    | .ok field => (field, .ok ())
    | .error fault => (field, .error fault)

/-- Writes values to the variable of a parameter, if it is bound to one. -/
def Parameter.write (p : Parameter) (values : List String) : Attempt Variables ParseError :=
  fun vs =>
    match vs.find? p.id with
    | none => (vs, .ok ())
    | some field =>
      let (field, outcome) := Field.storeAll values field
      (vs.set p.id field, outcome.mapError (.conversion p.label (" ".intercalate values)))

/-- Tells the variable of a flag how often the flag was mentioned. -/
def Parameter.writeFlag (p : Parameter) (n : Int) (vs : Variables) : Variables :=
  match vs.find? p.id with
  | none => vs
  | some field => vs.set p.id (field.mentionTimes n)

/-- Delivers a flag. -/
def Parameter.deliverFlag (p : Parameter) : Attempt Delivery ParseError := fun d =>
  match mentionSum (d.bindings.values p.id) with
  | .ok n => ({ d with vars := p.writeFlag n.toInt d.vars }, .ok ())
  | .error (value, fault) => (d, .error (.conversion p.label value fault))

/-- Delivers the values of a parameter that is no flag. -/
def Parameter.deliverValues (files : FileStore) (p : Parameter) : Attempt Delivery ParseError :=
  fun d =>
    let (invocations, rejection) := runChecks files p.checks (d.bindings.of p.id)
    let d := { d with bindings := d.bindings.set p.id invocations }
    match rejection with
    | some message => (d, .error (.validation p.label message))
    | none =>
      match p.finalValues invocations with
      | .error e => (d, .error e)
      | .ok values =>
        let (vars, outcome) := p.write values d.vars
        ({ d with vars }, outcome)

/-- Delivers a parameter, if it has an invocation. -/
def Parameter.deliver (files : FileStore) (p : Parameter) : Attempt Delivery ParseError := fun d =>
  if !d.bindings.invoked p.id then (d, .ok ())
  else if p.nargs.isFlag then p.deliverFlag d
  else p.deliverValues files d

/-! ## One command -/

namespace Schema

/-- The name of a parameter, for messages. -/
def labelOf (schema : Schema) (p : ParameterId) : String :=
  ((schema.parameter? p).map Parameter.label).getD ""

/-- The first relation of an invoked parameter that does not hold. -/
def relationViolation? (schema : Schema) (b : Bindings) (p : Parameter) : Option ParseError :=
  if !b.invoked p.id then none
  else
    let lacking := p.requires.find? fun q => !b.invoked q
    let present := p.excludes.find? fun q => b.invoked q
    (lacking.map fun q => .requires p.label (schema.labelOf q)) <|>
      present.map fun q => .excludes p.label (schema.labelOf q)

/-- The first thing wrong with what a command has been given. `innermost` says
that none of its sub-commands was entered. -/
def violation? (schema : Schema) (frame : Frame) (innermost : Bool) (b : Bindings) :
    Option ParseError :=
  let command := schema.command frame.command
  let settings := command.settings
  let lacking := command.parameters.find? fun p => p.required && !b.invoked p.id
  (lacking.map fun p => .required p.label) <|>
    (if frame.overflow.isEmpty then none else some (.positionalOverflow frame.overflow)) <|>
    (if frame.missing.isEmpty || settings.allowExtras || settings.prefixCommand then none
      else some (.extras frame.missing)) <|>
    command.parameters.findSome? (schema.relationViolation? b) <|>
    if command.requireSubcommand && innermost then
      some (.requiredSubcommand (" ".intercalate (schema.trail frame.command)))
    else none

/-- Delivers the parameters of a command and judges it. -/
def deliverFrame (schema : Schema) (files : FileStore) (frame : Frame) (innermost : Bool) :
    Attempt Delivery ParseError :=
  (Attempt.each (Parameter.deliver files) (schema.command frame.command).parameters).andThen
    fun d => Attempt.failIf (schema.violation? frame innermost d.bindings) d

/-- Delivers all commands of the active path, the innermost first. -/
def deliver (schema : Schema) (files : FileStore) (scan : Scan) : Attempt Delivery ParseError :=
  (schema.deliverFrame files scan.current true).andThen
    (Attempt.each (fun frame => schema.deliverFrame files frame false) scan.outer)

end Schema

end CommandLine
