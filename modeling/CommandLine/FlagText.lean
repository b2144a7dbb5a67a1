import CommandLine.Error
import CommandLine.Text.Lowercase
import CommandLine.Value

/-!
# Flags written as text

A flag that is not mentioned with dashes but set from a configuration
file or the environment has a text. `FlagText.count` says how many
mentions the text stands for: a word for yes is one, a word for no is
minus one, and a numeral is itself.
-/

namespace CommandLine.FlagText

/-- The words that switch a flag on, in lower case. -/
def onWords : List String := ["true", "t", "on", "yes", "y", "enable", "+"]

/-- The words that switch a flag off, in lower case. -/
def offWords : List String := ["false", "f", "off", "no", "n", "disable", "-", "0"]

/-- The number of mentions that a text stands for, whatever its case. -/
def count (text : String) : Except ConversionFault Int :=
  let lowered := Text.lowercase text
  if onWords.contains lowered then .ok 1
  else if offWords.contains lowered then .ok (-1)
  else match IntegerType.i64.read? lowered.toList with
    | some n => .ok n
    | none => .error (.notAFlagValue text)

end CommandLine.FlagText
