import CommandLine.Config.Item
import CommandLine.Text.Blank
import CommandLine.Text.Cut

/-!
# The colon format

The plainest configuration format: each line with a colon gives the
parameter named before it the one value after it, and other lines say
nothing. There are no sections.
-/

namespace CommandLine.Colon

open Text (trimChars)

/-- The item on a line. -/
def item? (line : List Char) : Option ConfigItem :=
  (Text.cutAt ':' line).map fun (name, value) =>
    ⟨[], String.ofList (trimChars name), [String.ofList (trimChars value)]⟩

def read (text : String) : List ConfigItem := (Text.lines text.toList).filterMap item?

/-- The line of an item, with its full name and with its values side by side. -/
def itemLine (item : ConfigItem) : String :=
  item.fullName ++ ": " ++ " ".intercalate item.inputs ++ "\n"

def write (all : List ConfigItem) : String := String.join (all.map itemLine)

/-- The format. -/
def format : ConfigFormat := ⟨read, write⟩

end CommandLine.Colon
