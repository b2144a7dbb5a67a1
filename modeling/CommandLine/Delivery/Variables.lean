import CommandLine.Field
import CommandLine.Schema.Basic

/-!
# The variables of a program

The variables that a program has bound to its parameters, with their
present contents (`Variables`). A variable outlives its parameter: it
keeps its content when the parameter is removed.
-/

namespace CommandLine

/-- The bound variables, by the number of the parameter. -/
structure Variables where
  entries : List (ParameterId × Field) := []
  deriving DecidableEq, Repr

namespace Variables

/-- The variable bound to a parameter. -/
def find? (vs : Variables) (p : ParameterId) : Option Field := vs.entries.lookup p

/-- The variables with one more. -/
def insert (vs : Variables) (p : ParameterId) (field : Field) : Variables :=
  ⟨vs.entries ++ [(p, field)]⟩

/-- The variables with another content in the one bound to a parameter. -/
def set (vs : Variables) (p : ParameterId) (field : Field) : Variables :=
  ⟨vs.entries.map fun entry => if entry.1 = p then (p, field) else entry⟩

end Variables

end CommandLine
