/-!
# Configuration items

What a configuration file says is a list of items, each of which gives a
parameter of some command its values (`ConfigItem`). A `ConfigFormat`
says how such a list is written down as text.
-/

namespace CommandLine

/-- Values for one parameter. -/
structure ConfigItem where
  /-- The names of the sub-commands that lead to the parameter, outermost first. -/
  parents : List String := []
  name : String
  inputs : List String
  deriving DecidableEq, Repr

/-- The name with all that leads to it, separated by dots. -/
def ConfigItem.fullName (item : ConfigItem) : String :=
  ".".intercalate (item.parents ++ [item.name])

/-- A way to write configuration items down. -/
structure ConfigFormat where
  read : String → List ConfigItem
  write : List ConfigItem → String

end CommandLine
