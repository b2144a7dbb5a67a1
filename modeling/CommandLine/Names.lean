import CommandLine.Error
import CommandLine.Text.Blank

/-!
# Names of parameters

A parameter is declared by a comma-separated list of names: short ones
(`-v`), long ones (`--verbose`) and at most one positional name
(`FILE`). `NamePart.ofChars` reads one entry of the list and
`Names.ofDeclaration` the whole of it. Which characters a dashed name
may hold is `canStartName` and `canContinueName`.
-/

namespace CommandLine

/-- Whether a dashed name may start with the character. -/
def canStartName (c : Char) : Bool :=
  !(c == '-' || c == '!' || c == ' ' || c == '\n' || c == '=')

/-- Whether the character may stand in a long name, after its start. -/
def canContinueName (c : Char) : Bool :=
  !(c == ' ' || c == '\t' || c == '\n' || c == '=')

/-- Whether the characters are a long name, or the name of a sub-command. -/
def isName : List Char → Bool
  | [] => false
  | c :: rest => canStartName c && rest.all canContinueName

/-- One entry of a declaration, without its dashes. -/
inductive NamePart where
  | short (name : Char)
  | long (name : String)
  | positional (name : String)
  deriving DecidableEq, Repr

/-- Reads an entry that is not empty and has no blanks around it. -/
def NamePart.ofChars : List Char → Except NameFault NamePart
  | ['-'] | ['-', '-'] => .error .onlyDashes
  | '-' :: '-' :: name =>
    if isName name then .ok (.long (String.ofList name)) else .error .invalidLong
  | '-' :: name =>
    match name with
    | [c] => if canStartName c then .ok (.short c) else .error .invalidShort
    | _ => .error .invalidShort
  | name =>
    if name.any Text.isBlank then .error .blankInPositional
    else .ok (.positional (String.ofList name))

/-- The names of a parameter, without their dashes. -/
structure Names where
  shorts : List Char := []
  longs : List String := []
  positional : Option String := none
  deriving DecidableEq, Repr

namespace Names

/-- Whether the parameter is filled by position. -/
def isPositional (names : Names) : Bool := names.positional.isSome

/-- Whether the parameter is mentioned with dashes. -/
def isDashed (names : Names) : Bool := !names.shorts.isEmpty || !names.longs.isEmpty

/-- The dashed names as they are written, the short ones first. -/
def flags (names : Names) : List String :=
  names.shorts.map (fun c => s!"-{c}") ++ names.longs.map fun name => s!"--{name}"

/-- The most telling name: the first long name, else the first short name,
else the positional name. -/
def label (names : Names) : String :=
  match names.longs, names.shorts with
  | name :: _, _ => s!"--{name}"
  | [], c :: _ => s!"-{c}"
  | [], [] => names.positional.getD ""

/-- The names with one more entry, which must not be a second positional name. -/
def insert (names : Names) : NamePart → Except NameFault Names
  | .short c => .ok { names with shorts := names.shorts ++ [c] }
  | .long name => .ok { names with longs := names.longs ++ [name] }
  | .positional name =>
    if names.isPositional then .error .secondPositional
    else .ok { names with positional := some name }

/-- The names after one more entry of a declaration; an error tells the entry. -/
def insertEntry (names : Names) (entry : List Char) : Except DeclarationError Names :=
  match NamePart.ofChars entry >>= names.insert with
  | .ok names => .ok names
  | .error fault => .error (.badName (String.ofList entry) fault)

/-- The entries of a declaration: what stands between the commas, less the
blanks around it, where that is not empty. -/
def entries (declaration : String) : List (List Char) :=
  ((declaration.toList.splitOn ',').map Text.trimChars).filter (!·.isEmpty)

/-- Reads a declaration. The first entry at fault decides the error. -/
def ofDeclaration (declaration : String) : Except DeclarationError Names :=
  match entries declaration with
  | [] => .error (.badName declaration .noNames)
  | found => found.foldlM insertEntry {}

end Names

end CommandLine
