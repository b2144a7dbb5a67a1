import CommandLine.Scan.Basic

/-!
# The environment layer

A parameter that is still open after the command line and the
configuration file takes the value of its environment variable, if it
has one and that is set (`Schema.layerEnvironment`).
-/

namespace CommandLine

/-- The value of the parameter's environment variable. -/
def Parameter.variable? (p : Parameter) (world : World) : Option String :=
  p.env.bind world.variable?

/-- The values with that of a parameter's variable, if it has no invocation. -/
def Bindings.addVariable (world : World) (b : Bindings) (p : Parameter) : Bindings :=
  if b.invoked p.id then b
  else match p.variable? world with
    | some value => b.push p.id [value]
    | none => b

/-- Adds the values of environment variables for the parameters of the path. -/
def Schema.layerEnvironment (schema : Schema) (world : World) (path : List CommandId)
    (b : Bindings) : Bindings :=
  (path.flatMap fun c => (schema.command c).parameters).foldl (Bindings.addVariable world) b

end CommandLine
