import CommandLine.Config.Item
import CommandLine.Config.Quoted
import CommandLine.Text.Cut

/-!
# The INI format

A line `name = values` is an item, and so is a bare `name`, which
switches a flag on. A line `[section]` names the sub-command that the
items below it belong to; dots lead further in, both in sections and in
names. Lines that start with `;` or `#` are comments. `Ini.Line.ofChars`
reads a line, and `Ini.items` gathers the items; `Ini.format` is the
format in both directions.
-/

namespace CommandLine.Ini

open Config (bracketed? readValues writeValues)
open Text (trimChars)

/-- What a line of a file says. -/
inductive Line where
  | blank
  /-- The items below belong to the command that the names lead to. -/
  | header (parents : List String)
  | item (parents : List String) (name : String) (inputs : List String)
  deriving DecidableEq, Repr

/-- The value of a flag whose name stands alone. -/
def bareValue : String := "ON"

/-- The name of the section for the root command, in any case of its letters. -/
def rootSection : String := "default"

/-- The names that a section header leads through. -/
def headerParents (header : List Char) : List String :=
  let header := trimChars header
  if header.isEmpty || header.map Char.toLower == rootSection.toList then []
  else (header.splitOn '.').map fun part => String.ofList (trimChars part)

/-- An item under a dotted name. -/
def Line.ofName (name : List Char) (inputs : List String) : Line :=
  let parts := (name.splitOn '.').map String.ofList
  .item parts.dropLast (parts.getLast?.getD "") inputs

/-- Reads a line without the blanks around it. -/
def Line.ofChars (line : List Char) : Line :=
  match line with
  | [] => .blank
  | ';' :: _ | '#' :: _ => .blank
  | _ =>
    match bracketed? line with
    | some body => .header (headerParents body)
    | none =>
      match Text.cutAt '=' line with
      | some (name, values) =>
        .ofName (trimChars name) ((readValues (trimChars values)).map String.ofList)
      | none => .ofName line [bareValue]

/-- The items on the lines, below the header that leads to `parents`. -/
def items (parents : List String) : List Line → List ConfigItem
  | [] => []
  | .blank :: rest => items parents rest
  | .header inner :: rest => items inner rest
  | .item more name inputs :: rest => ⟨parents ++ more, name, inputs⟩ :: items parents rest

/-- The items of a file. -/
def read (text : String) : List ConfigItem :=
  items [] ((Text.lines text.toList).map fun line => .ofChars (trimChars line))

/-- The line of one item, below the header of its section. -/
def itemLine (item : ConfigItem) : String :=
  item.name ++ " = " ++ String.ofList (writeValues (item.inputs.map String.toList)) ++ "\n"

/-- The lines of the items with those parents, in the order of the list. -/
def sectionLines (all : List ConfigItem) (parents : List String) : String :=
  String.join ((all.filter (·.parents == parents)).map itemLine)

/-- The header line of a section. -/
def headerLine (parents : List String) : String := "[" ++ ".".intercalate parents ++ "]\n"

/-- The sections other than the root's, in the order in which items name them. -/
def sections (all : List ConfigItem) : List (List String) :=
  ((all.map (·.parents)).filter (!·.isEmpty)).eraseDups

/-- The text of a file with the items. The root's items come first, since no
header leads back to it, and an empty line stands before each later section. -/
def write (all : List ConfigItem) : String :=
  let rootLines := sectionLines all []
  let blocks := (sections all).map fun parents => headerLine parents ++ sectionLines all parents
  "\n".intercalate (if rootLines.isEmpty then blocks else rootLines :: blocks)

/-- The format. -/
def format : ConfigFormat := ⟨read, write⟩

end CommandLine.Ini
