/-!
# Errors

Everything that can go wrong, as causes: a declaration that is refused
(`DeclarationError`), a command line that is not accepted
(`ParseError`), a question about a parameter that is not there
(`LookupError`). Each has its message, and the exit code of a program
that stops because of it.
-/

namespace CommandLine

/-! ## Declarations -/

/-- Why a name is not a name. -/
inductive NameFault where
  | onlyDashes
  | invalidLong
  | invalidShort
  | blankInPositional
  | secondPositional
  | noNames
  | invalidSubcommand
  deriving DecidableEq, Repr

def NameFault.reason : NameFault → String
  | .onlyDashes => "must not be only dashes"
  | .invalidLong => "not a valid long name"
  | .invalidShort => "a short name must be precisely one valid character"
  | .blankInPositional => "a positional name must not contain whitespace"
  | .secondPositional => "only one positional name may be declared"
  | .noNames => "no names declared"
  | .invalidSubcommand => "not a valid sub-command name"

/-- The kinds of names that must differ within one command. -/
inductive NameKind where
  | short
  | long
  | positional
  | subcommand
  deriving DecidableEq, Repr

def NameKind.label : NameKind → String
  | .short => "short name"
  | .long => "long name"
  | .positional => "positional name"
  | .subcommand => "sub-command"

/-- How one parameter can depend on another. -/
inductive Relation where
  | requires
  | excludes
  deriving DecidableEq, Repr

def Relation.label : Relation → String
  | .requires => "requires"
  | .excludes => "excludes"

/-- Declarations that contradict themselves. -/
inductive Misuse where
  | positionalOption (declaration : String)
  | dashedArgument (declaration : String)
  | positionalFlag (declaration : String)
  | checkedFlag (declaration : String)
  | unlimitedRepetition (declaration : String)
  | selfRelation (parameter : String) (relation : Relation)
  | foreignRelation (dependent : String) (relation : Relation) (target : String)
  | described (text : String)
  deriving DecidableEq, Repr

def Misuse.message : Misuse → String
  | .positionalOption d => s!"option '{d}' must only declare dashed names."
  | .dashedArgument d => s!"argument '{d}' must only declare a positional name."
  | .positionalFlag d => s!"positional '{d}' cannot be a flag."
  | .checkedFlag d => s!"flag '{d}' takes no values, so it cannot have validators."
  | .unlimitedRepetition d =>
    s!"'{d}' takes unlimited values, so it cannot have a multi option policy."
  | .selfRelation p relation => s!"'{p}' cannot " ++ relation.label ++ " itself."
  | .foreignRelation p relation target =>
    s!"'{p}' " ++ relation.label ++
      s!" '{target}', which must be in the same or an ancestor command."
  | .described text => text

/-- Why a declaration is refused. -/
inductive DeclarationError where
  | badName (name : String) (fault : NameFault)
  /-- The name, with its dashes, is taken. -/
  | duplicate (kind : NameKind) (name : String)
  | misuse (cause : Misuse)
  | duplicateRelation (dependent : String) (relation : Relation) (target : String)
  | missingParameter (name : String)
  deriving DecidableEq, Repr

namespace DeclarationError

def message : DeclarationError → String
  | badName name fault => s!"Config error: Invalid name '{name}': " ++ fault.reason ++ "."
  | duplicate kind name => "Config error: Cannot duplicate the " ++ kind.label ++ s!" '{name}'."
  | misuse cause => "Config error: " ++ cause.message
  | duplicateRelation dependent relation target =>
    s!"Config error: '{dependent}' already " ++ relation.label ++ s!" '{target}'."
  | missingParameter name => s!"Config error: Parameter '{name}' does not exist."

def exitCode : DeclarationError → Nat
  | misuse _ | missingParameter _ => 100
  | badName .. => 101
  | duplicate .. | duplicateRelation .. => 102

end DeclarationError

/-! ## Command lines -/

/-- Why a text does not become a value. -/
inductive ConversionFault where
  | notOfType (text typeName : String)
  | notAFlagValue (text : String)
  | manyFlagValues
  | described (reason : String)
  deriving DecidableEq, Repr

def ConversionFault.reason : ConversionFault → String
  | .notOfType text typeName => s!"cannot convert '{text}' to {typeName}."
  | .notAFlagValue text => s!"'{text}' is not a recognized flag value"
  | .manyFlagValues => "a flag takes a single value"
  | .described reason => reason

/-- The number of values that would have been right. -/
inductive Expected where
  | exactly (n : Nat)
  | atLeast (n : Nat)
  | multipleOf (n : Nat)
  | described (text : String)
  deriving DecidableEq, Repr

def Expected.text : Expected → String
  | .exactly n => s!"exactly {n}"
  | .atLeast n => s!"at least {n}"
  | .multipleOf n => s!"a multiple of {n}"
  | .described text => text

/-- Why a command line, with its configuration and environment, is not accepted. -/
inductive ParseError where
  | fileMissing (path : String)
  | conversion (parameter values : String) (fault : ConversionFault)
  | validation (parameter message : String)
  | required (parameter : String)
  | requiredSubcommand (command : String)
  | requires (parameter dependency : String)
  | excludes (parameter excluded : String)
  | extras (tokens : List String)
  | positionalOverflow (tokens : List String)
  | configExtra (item : String)
  | notConfigurable (item : String)
  | argumentMismatch (parameter : String) (expected : Expected) (received : Nat)
  /-- A contradiction within the program itself. -/
  | internal (detail : String)
  deriving DecidableEq, Repr

namespace ParseError

def message : ParseError → String
  | fileMissing path => s!"Parse error: '{path}' was not readable (missing?)."
  | conversion parameter values fault =>
    s!"Parse error: The value '{values}' is not valid for '{parameter}': " ++ fault.reason
  | validation parameter message => s!"Parse error: {parameter}: {message}"
  | required parameter => s!"Parse error: {parameter} is required."
  | requiredSubcommand command => s!"Parse error: A sub-command is required for '{command}'."
  | requires parameter dependency => s!"Parse error: {parameter} requires {dependency}."
  | excludes parameter excluded => s!"Parse error: {parameter} excludes {excluded}."
  | extras tokens =>
    "Parse error: The following " ++
      (if tokens.length > 1 then "arguments were" else "argument was") ++
      " not expected: " ++ " ".intercalate tokens
  | positionalOverflow tokens =>
    "Parse error: Too many positional arguments: " ++ " ".intercalate tokens
  | configExtra item =>
    s!"Parse error: The configuration item '{item}' does not match any parameter."
  | notConfigurable item => s!"Parse error: '{item}' cannot be set from a configuration file."
  | argumentMismatch parameter expected received =>
    "Parse error: Expected " ++ expected.text ++ s!" value(s) for {parameter}, got {received}."
  | internal detail =>
    s!"Parse error: Internal failure (this should never happen): {detail}"

def exitCode : ParseError → Nat
  | fileMissing _ => 103
  | conversion .. => 104
  | validation .. => 105
  | required _ | requiredSubcommand _ => 106
  | requires .. => 107
  | excludes .. => 108
  | extras _ | positionalOverflow _ => 109
  | configExtra _ | notConfigurable _ => 110
  | internal _ => 112
  | argumentMismatch .. => 114

/-- Whether the way to the help message should be shown along with the error:
not where the fault lies outside of the command line. -/
def showsUsage : ParseError → Bool
  | fileMissing _ | configExtra _ | notConfigurable _ | internal _ => false
  | _ => true

end ParseError

/-! ## Questions -/

/-- Why a question about a parameter has no answer. -/
inductive LookupError where
  | parameterNotFound (name : String)
  deriving DecidableEq, Repr

namespace LookupError

def message : LookupError → String
  | parameterNotFound name => s!"Lookup error: {name} not found."

def exitCode (_ : LookupError) : Nat := 113

end LookupError

end CommandLine
