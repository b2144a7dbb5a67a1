import CommandLine.Help.Page
import CommandLine.Help.Wrap
import CommandLine.Text.Blank

/-!
# Help in columns

The usual help text: a usage line, then the positional arguments, the
options and the sub-commands in two columns, the right one wrapped. The
left column is as wide as its longest entry (`Columns.ofRows`), and
`middleWidth` settles the right one.

Widths of entries are measured in bytes of UTF-8, while padding and
wrapping count characters. So the columns can come out wider than the
text needs, but never narrower.
-/

namespace CommandLine.Help

open Text (trimStart trimEnd)

/-- An entry: what it is called, and what is said about it. -/
structure Row where
  left : String
  description : String
  deriving DecidableEq, Repr

/-- The columns before the text: an indent, and a gap between the columns. -/
def indent : Nat := 1

def gap : Nat := 3

/-- The least width of the right column, in which three words of usual length fit. -/
def leastMiddle : Nat := 17

/-- The placeholder of a parameter's values: its name in upper case. -/
def placeholder (name : String) : List Char :=
  name.toList.map fun c => if c = '-' then '_' else c.toUpper

/-- How the values of a parameter are written, each behind a space. -/
def valuePattern (name : String) (nargs : Nargs) : List Char :=
  let value := placeholder name
  match nargs with
  | .exactly n => (List.replicate n (' ' :: value)).flatten
  | .any => " [".toList ++ value ++ " ...]".toList
  | .atLeastOne => ' ' :: value ++ " [...]".toList

/-- The pattern without the space in front. -/
def barePattern (p : ParameterHelp) : String :=
  String.ofList (trimStart (valuePattern p.name p.nargs))

/-- The option in the usage line, in brackets if it can be left out. -/
def optionUsage (p : ParameterHelp) : String :=
  let usage := match p.flags with
    | flag :: _ => flag ++ String.ofList (valuePattern p.name p.nargs)
    | [] => barePattern p
  if p.required then usage else "[" ++ usage ++ "]"

/-- What the right column says about a parameter. -/
def explanation (p : ParameterHelp) : String :=
  " ".intercalate (p.help.toList ++ (if p.required then ["[required]"] else []) ++
    p.env.toList.map fun name => "[env: " ++ name ++ "]")

def optionRow (p : ParameterHelp) : Row :=
  ⟨", ".intercalate p.flags ++ String.ofList (valuePattern p.name p.nargs), explanation p⟩

def argumentRow (p : ParameterHelp) : Row := ⟨barePattern p, explanation p⟩

def subcommandRow (s : SubcommandHelp) : Row := ⟨s.name, s.about.getD ""⟩

/-- The rows of a page under their headings. -/
def sections (page : HelpPage) : List (String × List Row) :=
  [("positional arguments:", page.arguments.map argumentRow),
    ("options:", page.options.map optionRow),
    ("sub-commands:", page.subcommands.map subcommandRow)]

/-- The rows of a page. -/
def rows (page : HelpPage) : List Row := (sections page).flatMap (·.2)

/-- The widths of the two columns; that of the right one includes the indent. -/
structure Columns where
  left : Nat
  middle : Nat
  deriving DecidableEq, Repr

/-- The extent of a terminal: its width, and the part of it that help tries to stay within. -/
structure Extent where
  total : Nat
  target : Nat
  target_le : target ≤ total

/-- Of twenty columns, those that help tries to stay within. -/
def targetTwentieths : Nat := 19

/-- The extent of a terminal of that width. -/
def Extent.ofTotal (total : Nat) : Extent where
  total := total
  target := targetTwentieths * total / 20
  target_le := by
    unfold targetTwentieths
    omega

/-- The width of the right column, whose text would like to have `wanted`. It
gets that where all stays within the target, else what the total leaves, and
never less than the least width. Without a terminal the text has its way. -/
def middleWidth (extent : Option Extent) (left wanted : Nat) : Nat :=
  let taken := left + gap
  let wanted := max wanted leastMiddle
  match extent with
  | none => wanted
  | some extent =>
    if wanted + taken ≤ extent.target then wanted
    else if taken < extent.total then max (extent.total - taken) leastMiddle
    else leastMiddle

/-- The columns in which the rows are set. -/
def Columns.ofRows (extent : Option Extent) (rows : List Row) : Columns :=
  let left := (rows.map (·.left.utf8ByteSize)).foldl max 1
  let wanted := (rows.map fun row => row.description.utf8ByteSize + indent).foldl max 2
  ⟨left, middleWidth extent left wanted⟩

/-- The characters with spaces behind them, up to the width. -/
def padTo (width : Nat) (cs : List Char) : List Char :=
  cs ++ List.replicate (width - cs.length) ' '

/-- The width at which descriptions are wrapped. -/
def Columns.wrapWidth (columns : Columns) : Nat := max (columns.middle - indent) 2

/-- A line with text in both columns. -/
def Columns.line (columns : Columns) (left text : List Char) : List Char :=
  List.replicate indent ' ' ++ padTo columns.left left ++ List.replicate gap ' ' ++ text

/-- The lines of an entry. Its name stands on the first one. -/
def Columns.lines (columns : Columns) (row : Row) : List (List Char) :=
  match Wrap.wrap columns.wrapWidth row.description.toList with
  | [] => [List.replicate indent ' ' ++ row.left.toList]
  | first :: rest => columns.line row.left.toList first :: rest.map (columns.line [])

/-- The usage line. -/
def usageLine (page : HelpPage) : String :=
  let parts := page.options.map optionUsage ++ page.arguments.map barePattern ++
    (if page.subcommands.isEmpty then [] else ["SUBCOMMAND ..."])
  String.ofList (trimEnd ("usage: " ++ page.program ++ " " ++ " ".intercalate parts).toList)

/-- A paragraph with an empty line above it. -/
def paragraph (text : Option String) : List String :=
  text.toList.flatMap fun text => ["", text]

/-- The rows under a heading, with an empty line above; no rows, no heading. -/
def Columns.sectionLines (columns : Columns) : String × List Row → List String
  | (_, []) => []
  | (heading, rows) => "" :: heading :: (rows.flatMap columns.lines).map String.ofList

/-- The help text, set for a terminal of the extent, or for none. -/
def renderIn (extent : Option Extent) (page : HelpPage) : String :=
  let columns := Columns.ofRows extent (rows page)
  "\n".intercalate (usageLine page :: paragraph page.about ++
    (sections page).flatMap columns.sectionLines ++ paragraph page.footer)

/-- The help text, set for a terminal of the given width. -/
def render (total : Option Nat) (page : HelpPage) : String :=
  renderIn (total.map Extent.ofTotal) page

/-- The formatter for a terminal of the given width, or for none. -/
def columnFormatter (total : Option Nat) : Formatter := ⟨render total⟩

end CommandLine.Help
